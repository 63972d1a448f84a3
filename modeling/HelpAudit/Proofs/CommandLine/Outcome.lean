import HelpAudit.Proofs.CommandLine.Arguments
import HelpAudit.Proofs.Report.Shown

/-!
What a lint from the command line comes to. The exit code tells whether the run could start, and
whether errors were found. The output shows what was found, if there was something to look at, and
what was found can be read off it.
-/
namespace HelpAudit

open Outcome (ofLines)

theorem Outcome.ofLines_eq_empty_iff {ls : List String} : ofLines ls = "" ↔ ls = [] := by
  cases ls with
  | nil => exact ⟨fun _ => rfl, fun _ => rfl⟩
  | cons l ls => simp [ofLines, String.join_cons, String.append_eq_empty_iff]

/-- The lines that a text was printed from. -/
def Outcome.linesOf (text : String) : List String :=
  (Text.pieces text.toList).dropLast.map String.ofList

theorem Outcome.pieces_ofLines {ls : List String} (h : ∀ l ∈ ls, '\n' ∉ l.toList) :
    Text.pieces (ofLines ls).toList = ls.map String.toList ++ [[]] := by
  have hbreak : "\n".toList = ['\n'] := rfl
  induction ls with
  | nil => rfl
  | cons l ls ih =>
    obtain ⟨hl, hls⟩ := List.forall_mem_cons.mp h
    have htext : (ofLines (l :: ls)).toList = l.toList ++ '\n' :: (ofLines ls).toList := by
      simp [ofLines, String.join_cons, hbreak]
    rw [htext, Text.pieces_append_newline, Text.pieces_of_not_mem hl, ih hls]
    rfl

theorem Outcome.linesOf_ofLines {ls : List String} (h : ∀ l ∈ ls, '\n' ∉ l.toList) :
    linesOf (ofLines ls) = ls := by
  rw [linesOf, pieces_ofLines h, List.dropLast_concat, List.map_map]
  exact List.map_id'' (fun _ => String.ofList_toList) ls

/-- What is printed of a result. -/
def OutputMode.lines (colours : Colours) (r : LintResult) : OutputMode → List String
  | .human => r.lines colours.out
  | .json => [r.toJson.pretty]

theorem OutputMode.lines_ne_nil (mode : OutputMode) (colours : Colours) (r : LintResult) :
    mode.lines colours r ≠ [] := by
  cases mode <;> simp [OutputMode.lines, LintResult.lines]

/-- What was found can be read off a text. JSON gives the whole result back. Of a report each line
is read: its lines show the findings, those of each file in their order, and they are the lines of
the text, if no name and no message has a line feed. -/
def OutputMode.Tells (colours : Colours) (r : LintResult) (text : String) : OutputMode → Prop
  | .human => ∃ lines issues, text = ofLines lines ∧ IsStableRearrangement r.issues issues ∧
      LintResult.readLines colours.out lines = issues.map Diagnostic.shown ∧
      ((∀ s ∈ r.strings, '\n' ∉ s.toList) → Outcome.linesOf text = lines)
  | .json => LintResult.ofJson? text = some r

theorem OutputMode.tells_lines (mode : OutputMode) (colours : Colours) (r : LintResult) :
    mode.Tells colours r (ofLines (mode.lines colours r)) := by
  cases mode with
  | human =>
    refine ⟨_, _, rfl, isStableRearrangement_groupByFile r.issues, r.readLines_lines _, fun h => ?_⟩
    exact Outcome.linesOf_ofLines fun _ => LintResult.newline_not_mem_of_mem_lines h
  | json =>
    have htext : ofLines [r.toJson.pretty] = r.toJson.pretty ++ "\n" := by simp [ofLines]
    rw [lines, htext]
    exact r.ofJson?_pretty

theorem countOf_pos_iff {s : Severity} {issues : List Diagnostic} :
    0 < countOf s issues ↔ ∃ d ∈ issues, d.severity = s := by
  simp [countOf, List.countP_pos_iff]

namespace Setup

variable {t : FileTree} {cwd path : String} {s : Setup}

/-- The packages directory, if there is one. -/
def packagesFolder? (t : FileTree) (cwd : String) (s : Setup) : Option FileTree.Place :=
  (t.find? cwd s.packagesRoot).filter (·.node.isFolder)

/-- The output mode exists, and so does the packages directory. -/
def Starts (t : FileTree) (cwd : String) (s : Setup) : Prop :=
  (s.output = "human" ∨ s.output = "json") ∧ (s.packagesFolder? t cwd).isSome = true

/-- All indexes below a packages directory. -/
def catalogAt (t : FileTree) (s : Setup) (place : FileTree.Place) : Catalog :=
  (Store.openAll (t.source place.path) s.indexName).value.catalog

/-- What the rules find in the target that a path leads to, if it leads to one. -/
def lintResult? (t : FileTree) (cwd path : String) (s : Setup) : Option LintResult := do
  let place ← s.packagesFolder? t cwd
  let resource ← FilePath.resource? (t.absolute cwd path) place.path
  let target ← Target.resolve? (s.catalogAt t place) resource
  let (issues, scanned) := (target.lint (s.catalogAt t place) (t.source place.path) .help).value
  return target.result issues scanned

/-- The path leads to a target, and errors are among its findings. -/
def FindsErrors (t : FileTree) (cwd path : String) (s : Setup) : Prop :=
  ∃ r, s.lintResult? t cwd path = some r ∧ ∃ d ∈ r.issues, d.severity = .error

end Setup

namespace Workspace

variable {t : FileTree} {cwd path : String} {o : Overrides} {w : Workspace}

theorem start_eq_ok_iff : (start t cwd o).value = .ok w ↔
    ∃ mode place, OutputMode.ofWord? (Setup.resolve t cwd o).value.output = some mode ∧
      (Setup.resolve t cwd o).value.packagesFolder? t cwd = some place ∧
      w = ⟨mode, place.path,
        (Store.openAll (t.source place.path) (Setup.resolve t cwd o).value.indexName).value⟩ := by
  unfold start Setup.packagesFolder?
  rw [Logged.bind_value]
  generalize (Setup.resolve t cwd o).value = s
  cases OutputMode.ofWord? s.output with
  | none => simp
  | some mode =>
    dsimp only
    rw [Logged.bind_value]
    cases t.find? cwd s.packagesRoot with
    | none => simp
    | some p =>
      dsimp only
      cases hfolder : p.node.isFolder with
      | false => simp [Option.filter_some, hfolder]
      | true =>
        rw [if_pos rfl, Logged.bind_value, Logged.pure_value, Option.filter_some, hfolder,
          if_pos rfl]
        constructor
        · intro h
          exact ⟨mode, p, rfl, rfl, (Except.ok.inj h).symm⟩
        · rintro ⟨_, _, hmode, hplace, rfl⟩
          cases hmode
          cases hplace
          rfl

/-- A run starts where its settings allow it to. -/
theorem exists_start_iff :
    (∃ w, (start t cwd o).value = .ok w) ↔ (Setup.resolve t cwd o).value.Starts t cwd := by
  simp only [start_eq_ok_iff]
  constructor
  · rintro ⟨_, mode, place, hmode, hplace, -⟩
    exact ⟨OutputMode.exists_word_iff.mp ⟨mode, OutputMode.ofWord?_eq_some_iff.mp hmode⟩,
      Option.isSome_iff_exists.mpr ⟨place, hplace⟩⟩
  · rintro ⟨hmode, hplace⟩
    obtain ⟨mode, hmode⟩ := OutputMode.exists_word_iff.mpr hmode
    obtain ⟨place, hplace⟩ := Option.isSome_iff_exists.mp hplace
    exact ⟨_, mode, place, OutputMode.ofWord?_eq_some_iff.mpr hmode, hplace, rfl⟩

/-- A lint in a packages directory either has no target or shows what is found in it. -/
theorem lint_cases {s : Setup} {place : FileTree.Place} (mode : OutputMode) (colours : Colours)
    (path : String) (hplace : s.packagesFolder? t cwd = some place) :
    let outcome := (lint
      ⟨mode, place.path, (Store.openAll (t.source place.path) s.indexName).value⟩
      t cwd colours path).value
    (s.lintResult? t cwd path = none ∧ outcome.exit = 0 ∧ outcome.out = "") ∨
      ∃ r, s.lintResult? t cwd path = some r ∧
        outcome.exit = (if 0 < countOf .error r.issues then 1 else 0) ∧
        outcome.out = ofLines (mode.lines colours r) := by
  rw [lint, Setup.lintResult?, hplace, Option.bind_eq_bind, Option.bind_some]
  cases FilePath.resource? (t.absolute cwd path) place.path with
  | none => exact .inl ⟨rfl, rfl, rfl⟩
  | some resource =>
    dsimp only
    rw [Store.lint, Option.bind_eq_bind, Option.bind_some, Setup.catalogAt]
    cases Target.resolve? _ resource with
    | none => exact .inl ⟨rfl, rfl, rfl⟩
    | some target =>
      refine .inr ⟨_, rfl, rfl, ?_⟩
      cases mode <;> rfl

end Workspace

/-- How a run with these settings ends that lints what a path leads to. -/
structure Setup.Ends (s : Setup) (t : FileTree) (cwd path : String) (colours : Colours)
    (outcome : Outcome) : Prop where
  refused : ¬s.Starts t cwd → outcome.exit = 2 ∧ outcome.out = ""
  idle : s.Starts t cwd → s.lintResult? t cwd path = none → outcome.exit = 0 ∧ outcome.out = ""
  reported : s.Starts t cwd → ∀ r, s.lintResult? t cwd path = some r →
    outcome.exit = (if 0 < countOf .error r.issues then 1 else 0) ∧
      ∀ mode : OutputMode, s.output = mode.word → outcome.out = ofLines (mode.lines colours r)

variable {t : FileTree} {cwd path : String} {o : Overrides} {isVerbose : Bool} {colours : Colours}

theorem Request.run_lint_value : (run t cwd colours (.lint path o isVerbose)).value =
    match (Workspace.start t cwd o).value with
    | .error message => .failed colours message
    | .ok w => (w.lint t cwd colours path).value := by
  rw [run, Logged.bind_value]
  cases (Workspace.start t cwd o).value <;> rfl

theorem Request.ends_run_lint : (Setup.resolve t cwd o).value.Ends t cwd path colours
    (run t cwd colours (.lint path o isVerbose)).value := by
  rw [run_lint_value]
  cases hstart : (Workspace.start t cwd o).value with
  | error message =>
    have hrefused : ¬(Setup.resolve t cwd o).value.Starts t cwd := by
      intro h
      obtain ⟨w, hw⟩ := Workspace.exists_start_iff.mpr h
      rw [hstart] at hw
      cases hw
    exact ⟨fun _ => ⟨rfl, rfl⟩, fun h => absurd h hrefused, fun h => absurd h hrefused⟩
  | ok w =>
    have hstarts := Workspace.exists_start_iff.mp ⟨w, hstart⟩
    obtain ⟨mode, place, hmode, hplace, rfl⟩ := Workspace.start_eq_ok_iff.mp hstart
    rw [OutputMode.ofWord?_eq_some_iff] at hmode
    rcases Workspace.lint_cases mode colours path hplace with ⟨hnone, hidle⟩ |
      ⟨r, hr, hexit, hout⟩
    · refine ⟨fun h => absurd hstarts h, fun _ _ => hidle, fun _ r hr => ?_⟩
      rw [hnone] at hr
      cases hr
    · refine ⟨fun h => absurd hstarts h, fun _ hnone => ?_, fun _ r' hr' => ?_⟩
      · rw [hnone] at hr
        cases hr
      · obtain rfl : r = r' := Option.some.inj (hr.symm.trans hr')
        refine ⟨hexit, fun mode' hmode' => ?_⟩
        obtain rfl : mode = mode' := OutputMode.word_injective (hmode.symm.trans hmode')
        exact hout

/-- Settings that differ in the output alone end in the same exit code and the same report. -/
theorem Setup.Ends.output_congr {s : Setup} {mode mode' : OutputMode} {outcome other : Outcome}
    (h : Ends { s with output := mode.word } t cwd path colours outcome)
    (h' : Ends { s with output := mode'.word } t cwd path colours other) :
    other.exit = outcome.exit ∧
      ((outcome.out = "" ∧ other.out = "") ∨
        ∃ r, s.lintResult? t cwd path = some r ∧ outcome.out = ofLines (mode.lines colours r) ∧
          other.out = ofLines (mode'.lines colours r)) := by
  have hstarts (m : OutputMode) : Starts t cwd { s with output := m.word } ↔
      (s.packagesFolder? t cwd).isSome = true :=
    and_iff_right (OutputMode.exists_word_iff.mp ⟨m, rfl⟩)
  by_cases hfolder : (s.packagesFolder? t cwd).isSome = true
  · cases hfound : s.lintResult? t cwd path with
    | none =>
      obtain ⟨hexit, hout⟩ := h.idle ((hstarts mode).mpr hfolder) hfound
      obtain ⟨hexit', hout'⟩ := h'.idle ((hstarts mode').mpr hfolder) hfound
      exact ⟨hexit'.trans hexit.symm, .inl ⟨hout, hout'⟩⟩
    | some r =>
      obtain ⟨hexit, hout⟩ := h.reported ((hstarts mode).mpr hfolder) r hfound
      obtain ⟨hexit', hout'⟩ := h'.reported ((hstarts mode').mpr hfolder) r hfound
      exact ⟨hexit'.trans hexit.symm, .inr ⟨r, rfl, hout mode rfl, hout' mode' rfl⟩⟩
  · obtain ⟨hexit, hout⟩ := h.refused (mt (hstarts mode).mp hfolder)
    obtain ⟨hexit', hout'⟩ := h'.refused (mt (hstarts mode').mp hfolder)
    exact ⟨hexit'.trans hexit.symm, .inl ⟨hout, hout'⟩⟩

/-- The exit code tells how a run ended, and the output whether there was something to look at. -/
theorem Setup.Ends.tells {s : Setup} {outcome : Outcome}
    (h : s.Ends t cwd path colours outcome) :
    (outcome.exit = 2 ↔ ¬s.Starts t cwd) ∧ (outcome.exit = 2 → outcome.out = "") ∧
      (s.Starts t cwd →
        (outcome.exit = 1 ↔ s.FindsErrors t cwd path) ∧
        (outcome.exit = 0 ↔ ¬s.FindsErrors t cwd path) ∧
        (outcome.out = "" ↔ s.lintResult? t cwd path = none)) := by
  by_cases hstarts : s.Starts t cwd
  · cases hfound : s.lintResult? t cwd path with
    | none =>
      obtain ⟨hexit, hout⟩ := h.idle hstarts hfound
      simp [hstarts, hexit, hout, FindsErrors, hfound]
    | some r =>
      obtain ⟨hexit, hout⟩ := h.reported hstarts r hfound
      have hprinted : outcome.out ≠ "" := by
        obtain ⟨mode, hmode⟩ := OutputMode.exists_word_iff.mpr hstarts.1
        rw [hout mode hmode, Ne, Outcome.ofLines_eq_empty_iff]
        exact mode.lines_ne_nil colours r
      have herrors : s.FindsErrors t cwd path ↔ 0 < countOf .error r.issues := by
        simp [FindsErrors, hfound, countOf_pos_iff]
      rw [hexit, herrors]
      split
      · next herror => simp [hstarts, hprinted, herror]
      · next herror => simp [hstarts, hprinted, herror]
  · obtain ⟨hexit, hout⟩ := h.refused hstarts
    exact ⟨iff_of_true hexit hstarts, fun _ => hout, fun h => absurd h hstarts⟩

theorem ends_runCommandLine (t : FileTree) (cwd : String) (colours : Colours)
    {args : List String} (hread : Arguments.read args = .ok (.lint path o isVerbose)) :
    (Setup.resolve t cwd o).value.Ends t cwd path colours
      (runCommandLine t cwd colours args).value := by
  rw [runCommandLine, hread]
  exact Request.ends_run_lint

theorem Setup.ofSettings_output (root : String) (o : Overrides) (settings : Settings)
    (word : String) : ofSettings root { o with output := some word } settings =
      { ofSettings root o settings with output := word } := rfl

/-- An output that is asked for stands whatever the settings say, and changes nothing else. -/
theorem Setup.resolve_output (t : FileTree) (cwd : String) (o : Overrides) (word : String) :
    (resolve t cwd { o with output := some word }).value =
      { (resolve t cwd o).value with output := word } := by
  rw [resolve, resolve, Logged.bind_value, Logged.bind_value, Logged.pure_value,
    Logged.pure_value, ofSettings_output]

/-- Asking for another output changes neither the exit code nor what is reported. -/
theorem runCommandLine_output_congr {before after : List String} {inOne : Bool} {mode : OutputMode}
    (mode' : OutputMode) (hbefore : "--" ∉ before)
    (hread : Arguments.read (Arguments.lintArguments before after inOne mode) =
      .ok (.lint path o isVerbose)) :
    let outcome := (runCommandLine t cwd colours
      (Arguments.lintArguments before after inOne mode)).value
    let other := (runCommandLine t cwd colours
      (Arguments.lintArguments before after inOne mode')).value
    other.exit = outcome.exit ∧
      ((outcome.out = "" ∧ other.out = "") ∨
        ∃ r, (Setup.resolve t cwd o).value.lintResult? t cwd path = some r ∧
          outcome.out = ofLines (mode.lines colours r) ∧
          other.out = ofLines (mode'.lines colours r)) := by
  obtain ⟨ho, hread'⟩ := Arguments.read_lintArguments hbefore hread mode'
  -- both runs have the settings of `o`, apart from the output
  have hsame : { o with output := some mode.word } = o := by
    rw [← ho]
  have hends := ends_runCommandLine t cwd colours hread
  have hends' := ends_runCommandLine t cwd colours hread'
  rw [← hsame, Setup.resolve_output] at hends
  rw [Setup.resolve_output] at hends'
  exact hends.output_congr hends'

/-- The exit code of a lint tells its outcome. It is 2 where the run could not start, else 1 where
errors were found and 0 where none were; nothing is printed where there was nothing to look at. The
output that is asked for makes no difference to the exit code and to what is reported, which can be
read off either output. -/
theorem runCommandLine_lint (t : FileTree) (cwd : String) (colours : Colours) {args : List String}
    {path : String} {o : Overrides} {isVerbose : Bool}
    (hread : Arguments.read args = .ok (.lint path o isVerbose)) :
    let s := (Setup.resolve t cwd o).value
    let found := s.lintResult? t cwd path
    let outcome := (runCommandLine t cwd colours args).value
    (outcome.exit = 2 ↔ ¬s.Starts t cwd) ∧
      (outcome.exit = 2 → outcome.out = "") ∧
      (s.Starts t cwd →
        (outcome.exit = 1 ↔ s.FindsErrors t cwd path) ∧
          (outcome.exit = 0 ↔ ¬s.FindsErrors t cwd path) ∧
          (outcome.out = "" ↔ found = none)) ∧
      ∀ before after inOne mode mode', "--" ∉ before →
        args = Arguments.lintArguments before after inOne mode →
        let other := (runCommandLine t cwd colours
          (Arguments.lintArguments before after inOne mode')).value
        other.exit = outcome.exit ∧
          ((outcome.out = "" ∧ other.out = "") ∨
            ∃ r, found = some r ∧ outcome.out = ofLines (mode.lines colours r) ∧
              other.out = ofLines (mode'.lines colours r) ∧
              mode.Tells colours r outcome.out ∧ mode'.Tells colours r other.out) := by
  intro s found outcome
  have hends : (Setup.resolve t cwd o).value.Ends t cwd path colours outcome :=
    ends_runCommandLine t cwd colours hread
  obtain ⟨hrefused, hsilent, hstarted⟩ := hends.tells
  refine ⟨hrefused, hsilent, hstarted, ?_⟩
  rintro before after inOne mode mode' hbefore rfl
  obtain ⟨hexit, hsilent' | ⟨r, hr, hout, hout'⟩⟩ := runCommandLine_output_congr mode' hbefore hread
  · exact ⟨hexit, .inl hsilent'⟩
  · refine ⟨hexit, .inr ⟨r, hr, hout, hout', ?_, ?_⟩⟩
    · rw [hout]
      exact mode.tells_lines colours r
    · rw [hout']
      exact mode'.tells_lines colours r

/-- A package whose index declares a file that is not there. -/
def lostFile : FileTree :=
  .folder [("Packages", .folder [("Docs", .folder [("hyperhelp.json", .file (some
    "\x7b\"package\":\"Docs\",\"help_files\":\x7b\"lost.txt\":[\"Lost\"]\x7d\x7d"))])])]

def lintLostFile (mode : OutputMode) : List String :=
  Arguments.lintArguments ["Packages/Docs"] [] false mode

/-- The missing file is an error, whatever the output, and both outputs show it. -/
theorem lintLostFile_outcome :
    let o : Overrides := ⟨none, none, some "human"⟩
    let outcome (mode : OutputMode) :=
      (runCommandLine lostFile "/" ⟨false, false⟩ (lintLostFile mode)).value
    Arguments.read (lintLostFile .human) = .ok (.lint "Packages/Docs" o false) ∧
      (Setup.resolve lostFile "/" o).value.Starts lostFile "/" ∧
      (outcome .human).exit = 1 ∧ (outcome .human).out ≠ "" ∧ (outcome .json).exit = 1 ∧
      ∃ r, (∃ d ∈ r.issues, d.severity = .error) ∧
        LintResult.ofJson? (outcome .json).out = some r ∧
        OutputMode.human.Tells ⟨false, false⟩ r (outcome .human).out := by
  intro o outcome
  have hread : Arguments.read (lintLostFile .human) = .ok (.lint "Packages/Docs" o false) := by rfl
  have hstarts : (Setup.resolve lostFile "/" o).value.Starts lostFile "/" := by
    unfold Setup.Starts
    decide +kernel
  obtain ⟨r, hr, herror⟩ : ∃ r, (Setup.resolve lostFile "/" o).value.lintResult? lostFile "/"
      "Packages/Docs" = some r ∧ ∃ d ∈ r.issues, d.severity = .error := by
    have hfound : ((Setup.resolve lostFile "/" o).value.lintResult? lostFile "/"
        "Packages/Docs").any (fun r => r.issues.any (·.severity = .error)) = true := by
      decide +kernel
    obtain ⟨r, hr, herror⟩ := (Option.any_eq_true _ _).mp hfound
    exact ⟨r, hr, by simpa [List.any_eq_true] using herror⟩
  obtain ⟨-, -, hstarted, hswap⟩ := runCommandLine_lint lostFile "/" ⟨false, false⟩ hread
  obtain ⟨herrors, -, hprinted⟩ := hstarted hstarts
  have hexit : (outcome .human).exit = 1 := herrors.mpr ⟨r, hr, herror⟩
  have hout : (outcome .human).out ≠ "" := by
    rw [Ne, hprinted, hr]
    exact Option.some_ne_none r
  obtain ⟨hsame, ⟨hsilent, -⟩ | ⟨r', hr', -, -, hhuman, hjson⟩⟩ :=
    hswap ["Packages/Docs"] [] false .human .json (by decide) rfl
  · exact absurd hsilent hout
  · obtain rfl : r = r' := Option.some.inj (hr.symm.trans hr')
    exact ⟨hread, hstarts, hexit, hout, hsame.trans hexit, r, herror, hjson, hhuman⟩

end HelpAudit
