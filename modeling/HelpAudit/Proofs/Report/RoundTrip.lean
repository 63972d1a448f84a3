import HelpAudit.Proofs.Report.Group
import HelpAudit.Proofs.Report.Jump

/-!
A report read back from its text. The reader goes by the last name that it could read; where every
name can be read it finds each finding of the report in its file, and nothing else.
-/
namespace HelpAudit

open Text

namespace Jump

/-- The place that a line below the name `file` gives. -/
def inLine? (file : String) (line : List Char) : Option Jump := do
  let (l, c, message) ← issue? line
  return ⟨file, ← number? l, ← number? c, .ofList message⟩

variable {line : List Char}

theorem scan_cons_of_file? {name : List Char} (file : Option (List Char))
    (rest : List (List Char)) (h : file? line = some name) :
    scan file (line :: rest) = scan (some name) rest := by
  rw [scan, h]

theorem scan_cons (file : Option String) (rest : List (List Char)) (h : file? line = none) :
    scan (file.map String.toList) (line :: rest) =
      (file.bind (inLine? · line)).toList ++ scan (file.map String.toList) rest := by
  rw [scan, h]
  cases file with
  | none => rfl
  | some name => simp [inLine?]

end Jump

/-- What a group of findings adds below the name `file` when its own name cannot be read. -/
def strays (file : String) (g : IssueGroup) : List Jump :=
  (Jump.inLine? file (g.file.toList ++ [':'])).toList ++ g.issues.filterMap (·.jumpIn? file)

/-- What is read of groups of findings below the name `file`. -/
def readGroups : (file : Option String) → List IssueGroup → List Jump
  | _, [] => []
  | file, g :: gs =>
    if canHead g.file then g.issues.filterMap (·.jumpIn? g.file) ++ readGroups (some g.file) gs
    else file.toList.flatMap (strays · g) ++ readGroups file gs

namespace LintResult

variable {r : LintResult} {g : IssueGroup} {rest : List (List Char)}

theorem inLine?_issueLine (file : String) {d : Diagnostic} (h : IsTidy d.message) :
    Jump.inLine? file (issueLine false d).toList = d.jumpIn? file := by
  rw [Jump.inLine?, issue?_issueLine h]
  simp only [Option.bind_eq_bind, Option.bind_some, Jump.number?_toDigits, String.ofList_toList,
    Diagnostic.jumpIn?]
  by_cases h : d.position.line < Nat.pow 2 64 ∧ d.position.column < Nat.pow 2 64
  · rw [if_pos h, if_pos h.1, if_pos h.2]
    rfl
  · rw [if_neg h]
    by_cases hl : d.position.line < Nat.pow 2 64
    · rw [if_pos hl, if_neg fun hc => h ⟨hl, hc⟩]
      rfl
    · rw [if_neg hl]
      rfl

theorem scan_issueLines (file : Option String) (issues : List Diagnostic)
    (h : ∀ d ∈ issues, IsTidy d.message) :
    Jump.scan (file.map String.toList) (issues.map (fun d => (issueLine false d).toList) ++ rest) =
      file.toList.flatMap (fun f => issues.filterMap (·.jumpIn? f)) ++
        Jump.scan (file.map String.toList) rest := by
  induction issues with
  | nil => cases file <;> rfl
  | cons d issues ih =>
    have hd := h d List.mem_cons_self
    rw [List.map_cons, List.cons_append, Jump.scan_cons file _ (file?_issueLine d),
      ih fun x hx => h x (List.mem_cons_of_mem _ hx), ← List.append_assoc]
    congr 1
    cases file with
    | none => rfl
    | some f =>
      simp only [Option.bind_some, inLine?_issueLine f hd, Option.toList_some,
        List.flatMap_singleton, List.filterMap_cons]
      cases d.jumpIn? f <;> rfl

theorem toList_groupLines (g : IssueGroup) : (groupLines false g).map String.toList =
    (g.file.toList ++ [':']) :: (g.issues.map (fun d => (issueLine false d).toList) ++ [[]]) := by
  have hcolon : ":".toList = [':'] := rfl
  simp [groupLines, hcolon]

/-- A group's name is read or not, and its findings are read below it or below the name before. -/
theorem scan_groupLines (file : Option String) (gs : List IssueGroup)
    (h : ∀ g ∈ gs, ∀ d ∈ g.issues, IsTidy d.message) (hrest : ∀ file, Jump.scan file rest = []) :
    Jump.scan (file.map String.toList)
        ((gs.flatMap (groupLines false)).map String.toList ++ rest) = readGroups file gs := by
  have hblank (file : Option String) (rest : List (List Char)) :
      Jump.scan (file.map String.toList) ([] :: rest) =
        Jump.scan (file.map String.toList) rest := by
    rw [Jump.scan_cons file _ rfl]
    cases file <;> rfl
  induction gs generalizing file with
  | nil => exact hrest _
  | cons g gs ih =>
    have hg := h g List.mem_cons_self
    have hgs := fun file => ih file fun g hg => h g (List.mem_cons_of_mem _ hg)
    rw [List.flatMap_cons, List.map_append, toList_groupLines, List.append_assoc, readGroups,
      List.cons_append, List.append_assoc, List.singleton_append]
    have hhead := Jump.file?_heading g.file
    split
    · next hcan =>
      rw [if_pos hcan] at hhead
      rw [Jump.scan_cons_of_file? _ _ hhead]
      change Jump.scan ((some g.file).map String.toList) _ = _
      rw [scan_issueLines (some g.file) g.issues hg, hblank, hgs]
      simp
    · next hcan =>
      rw [if_neg hcan] at hhead
      rw [Jump.scan_cons file _ hhead, scan_issueLines file g.issues hg, hblank, hgs,
        ← List.append_assoc]
      congr 1
      cases file with
      | none => rfl
      | some f => simp [strays]

/-- A title ends in a colon, a blank and the package. -/
theorem toList_titleLine (r : LintResult) : ∃ start, r.titleLine.toList =
    start ++ ':' :: ' ' :: r.package.toList ∧
      ((∀ file ∈ r.files.head?, '\n' ∉ file.toList) → '\n' ∉ start) := by
  unfold titleLine
  split
  · next file files hfiles =>
    split
    · refine ⟨"Linting ".toList ++ file.toList ++ " in help package".toList, by simp, fun h => ?_⟩
      have hfile := h file (by simp [hfiles])
      simp [hfile]
    · exact ⟨"Linting help package".toList, by simp, by simp⟩
  · exact ⟨"Linting help package".toList, by simp, by simp⟩

theorem not_mem_plural {c : Char} {word : String} (hdigit : c.isDigit = false)
    (hc : c ∉ (" s" ++ word).toList) (n : Nat) : c ∉ (plural n word).toList := by
  have hnumber : c ∉ Nat.toDigits 10 n := by
    intro h
    have hc := isDigit_of_mem_toDigits h
    rw [hdigit] at hc
    exact Bool.noConfusion hc
  unfold plural
  split
  · simp_all
  · simp_all

/-- A summary holds digits and the letters of its words. -/
theorem not_mem_summaryLine (r : LintResult) {c : Char} (hdigit : c.isDigit = false)
    (hc : c ∉ (", s" ++ "warning" ++ "error").toList) : c ∉ r.summaryLine.toList := by
  have hwarning : c ∉ (" s" ++ "warning").toList := by simp_all
  have herror : c ∉ (" s" ++ "error").toList := by simp_all
  have hcomma : c ∉ ", ".toList := by simp_all
  rw [summaryLine, String.toList_append, String.toList_append, List.mem_append, List.mem_append]
  rintro ((h | h) | h)
  · exact not_mem_plural hdigit hwarning _ h
  · exact hcomma h
  · exact not_mem_plural hdigit herror _ h

theorem summaryLine_ne_nil (r : LintResult) : r.summaryLine.toList ≠ [] := by
  simp [summaryLine]

theorem scan_summaryLine (r : LintResult) (file : Option (List Char)) :
    Jump.scan file [r.summaryLine.toList] = [] := by
  obtain ⟨hfile, hissue⟩ := Jump.file?_issue?_of_not_mem
    (not_mem_summaryLine r (c := ':') (by decide) (by decide))
    (not_mem_summaryLine r (c := '@') (by decide) (by decide))
  rw [Jump.scan, hfile]
  cases file with
  | none => rfl
  | some name => simp [hissue, Jump.scan]

/-- A name that stands before a line break, and a message, are what a report may hold. -/
structure IsWritable (r : LintResult) : Prop where
  package : '\n' ∉ r.package.toList
  title : ∀ file ∈ r.files.head?, '\n' ∉ file.toList
  files : ∀ d ∈ r.issues, '\n' ∉ d.file.toList
  messages : ∀ d ∈ r.issues, IsTidy d.message

variable {line : List Char}

theorem mem_groupLines {gs : List IssueGroup}
    (h : line ∈ (gs.flatMap (groupLines false)).map String.toList) : ∃ g ∈ gs,
      line = g.file.toList ++ [':'] ∨ (∃ d ∈ g.issues, line = (issueLine false d).toList) ∨
        line = [] := by
  rw [List.map_flatMap] at h
  obtain ⟨g, hg, h⟩ := List.mem_flatMap.mp h
  refine ⟨g, hg, ?_⟩
  rw [toList_groupLines, List.mem_cons, List.mem_append, List.mem_singleton, List.mem_map] at h
  rcases h with h | ⟨d, hd, h⟩ | h
  · exact .inl h
  · exact .inr (.inl ⟨d, hd, h.symm⟩)
  · exact .inr (.inr h)

/-- The lines of the groups hold no line feed and end in no carriage return. -/
theorem plain_of_mem_groupLines (h : r.IsWritable)
    (hline : line ∈ ((groupByFile r.issues).flatMap (groupLines false)).map String.toList) :
    '\n' ∉ line ∧ dropReturn line = line := by
  obtain ⟨g, hg, rfl | ⟨d, hd, rfl⟩ | rfl⟩ := mem_groupLines hline
  · obtain ⟨d, hd, hfile⟩ := exists_issue_of_mem hg
    have hname := h.files d hd
    rw [hfile] at hname
    refine ⟨by simp [hname], dropReturn_of_getLast?_ne ?_⟩
    rw [List.getLast?_concat]
    decide
  · have htidy := h.messages d ((mem_issues_of_mem hg).mp hd).1
    exact ⟨newline_not_mem_issueLine htidy, dropReturn_issueLine htidy⟩
  · exact ⟨by simp, rfl⟩

/-- A title is passed over, whatever it ends in. -/
theorem scan_titleLine (r : LintResult) (rest : List (List Char)) :
    Jump.scan none (dropReturn r.titleLine.toList :: rest) = Jump.scan none rest := by
  obtain ⟨start, htitle, -⟩ := toList_titleLine r
  have hne : dropReturn (' ' :: r.package.toList) ≠ [] := by
    cases hpackage : r.package.toList with
    | nil => simp [dropReturn]
    | cons c cs =>
      rw [← List.singleton_append, dropReturn_append [' '] (by simp)]
      simp
  have hfile : Jump.file? (dropReturn r.titleLine.toList) = none := by
    rw [htitle, List.append_cons, dropReturn_append _ (by simp), ← List.append_cons]
    exact Jump.file?_eq_none_of_colon start hne
  rw [Jump.scan, hfile]
  rfl

/-- What is read back of a report are its groups, below the names that can be read. -/
theorem ofReport_eq_readGroups (h : r.IsWritable) :
    Jump.ofReport r.report = readGroups none (groupByFile r.issues) := by
  let groups := ((groupByFile r.issues).flatMap (groupLines false)).map String.toList
  have htidy : ∀ g ∈ groupByFile r.issues, ∀ d ∈ g.issues, IsTidy d.message :=
    fun g hg d hd => h.messages d ((mem_issues_of_mem hg).mp hd).1
  have hreport : r.report.toList =
      ['\n'].intercalate ((r.titleLine.toList :: [] :: groups) ++ [r.summaryLine.toList]) := by
    rw [report, String.toList_intercalate]
    simp [lines, groups]
  have hbreaks : ∀ line ∈ r.titleLine.toList :: [] :: groups, '\n' ∉ line := by
    intro line hline
    rcases List.mem_cons.mp hline with rfl | hline
    · obtain ⟨start, htitle, hstart⟩ := toList_titleLine r
      rw [htitle]
      simp [hstart h.title, h.package]
    · rcases List.mem_cons.mp hline with rfl | hline
      · simp
      · exact (plain_of_mem_groupLines h hline).1
  have hgroups : groups.map dropReturn = groups :=
    (List.map_congr_left fun line hline => (plain_of_mem_groupLines h hline).2).trans
      (List.map_id _)
  rw [Jump.ofReport, hreport, lines_intercalate hbreaks
    (not_mem_summaryLine r (by decide) (by decide)) (summaryLine_ne_nil r), List.map_cons,
    List.map_cons, hgroups, List.cons_append, List.cons_append, scan_titleLine]
  have hblank : Jump.scan none (dropReturn [] :: (groups ++ [r.summaryLine.toList])) =
      Jump.scan none (groups ++ [r.summaryLine.toList]) := rfl
  rw [hblank]
  exact scan_groupLines none _ htidy (scan_summaryLine r)

end LintResult

/-- A finding that a report gives back: its file can be read as a name, its message as a line's, and
its numbers as numbers of 64 bits. -/
structure Diagnostic.IsReadable (d : Diagnostic) : Prop where
  heads : canHead d.file = true
  name : '\n' ∉ d.file.toList
  message : IsTidy d.message
  line : d.position.line < Nat.pow 2 64
  column : d.position.column < Nat.pow 2 64

/-- Where a finding stands and what it says. -/
def Diagnostic.jump (d : Diagnostic) : Jump :=
  ⟨d.file, d.position.line, d.position.column, d.message⟩

theorem Diagnostic.jumpIn?_file {d : Diagnostic} (h : d.IsReadable) :
    d.jumpIn? d.file = some d.jump := if_pos ⟨h.line, h.column⟩

theorem readGroups_of_canHead (file : Option String) {gs : List IssueGroup}
    (h : ∀ g ∈ gs, canHead g.file = true) :
    readGroups file gs = gs.flatMap fun g => g.issues.filterMap (·.jumpIn? g.file) := by
  induction gs generalizing file with
  | nil => rfl
  | cons g gs ih =>
    rw [readGroups, if_pos (h g List.mem_cons_self), List.flatMap_cons,
      ih _ fun g hg => h g (List.mem_cons_of_mem _ hg)]

namespace LintResult

theorem filterMap_jumpIn? {r : LintResult} (h : ∀ d ∈ r.issues, d.IsReadable) {g : IssueGroup}
    (hg : g ∈ groupByFile r.issues) :
    g.issues.filterMap (·.jumpIn? g.file) = g.issues.map Diagnostic.jump := by
  rw [← List.filterMap_eq_map]
  refine List.filterMap_congr fun d hd => ?_
  obtain ⟨hmem, hfile⟩ := (mem_issues_of_mem hg).mp hd
  rw [← hfile]
  exact Diagnostic.jumpIn?_file (h d hmem)

/-- Reading a report gives its findings back, file by file in the order in which the files come up,
and in each file in order; so each comes back once, in its own file. -/
theorem ofReport_report (r : LintResult) (hpackage : '\n' ∉ r.package.toList)
    (htitle : ∀ file ∈ r.files.head?, '\n' ∉ file.toList)
    (hissues : ∀ d ∈ r.issues, d.IsReadable) :
    Jump.ofReport r.report =
        (groupByFile r.issues).flatMap (fun g => g.issues.map Diagnostic.jump) ∧
      groupByFile r.issues = (r.issues.map (·.file)).eraseDups.map (groupOf r.issues) ∧
      (Jump.ofReport r.report).Perm (r.issues.map Diagnostic.jump) := by
  have hwritable : r.IsWritable := ⟨hpackage, htitle, fun d hd => (hissues d hd).name,
    fun d hd => (hissues d hd).message⟩
  have hheads : ∀ g ∈ groupByFile r.issues, canHead g.file = true := by
    intro g hg
    obtain ⟨d, hd, hfile⟩ := exists_issue_of_mem hg
    rw [← hfile]
    exact (hissues d hd).heads
  have hread : Jump.ofReport r.report =
      (groupByFile r.issues).flatMap (fun g => g.issues.map Diagnostic.jump) := by
    rw [ofReport_eq_readGroups hwritable, readGroups_of_canHead none hheads]
    exact List.flatMap_congr fun g hg => filterMap_jumpIn? hissues hg
  refine ⟨hread, groupByFile_eq r.issues, ?_⟩
  rw [hread, ← List.map_flatMap]
  exact (perm_groupByFile r.issues).map _

/-- A title, a name and messages that look like places, at the largest numbers. -/
def lookalikes : LintResult where
  scope := "single"
  package := "P @ 7:7 x:"
  files := ["@ 8:8"]
  issues := [⟨.error, "link", "b @ x", ⟨18446744073709551615, 1⟩, "see @ 1:2 a.txt:"⟩,
    ⟨.info, "link", "a.txt", ⟨3, 18446744073709551615⟩, ""⟩,
    ⟨.warning, "link", "b @ x", ⟨2, 12345678⟩, "a.txt:"⟩]
  summary := ⟨1, 1, 1, 1⟩

theorem lookalikes_read_back :
    (∀ d ∈ lookalikes.issues, d.IsReadable) ∧ Jump.ofReport lookalikes.report =
      [⟨"b @ x", 18446744073709551615, 1, "see @ 1:2 a.txt:"⟩, ⟨"b @ x", 2, 12345678, "a.txt:"⟩,
        ⟨"a.txt", 3, 18446744073709551615, ""⟩] := by
  have hissues : ∀ d ∈ lookalikes.issues, d.IsReadable := by
    intro d hd
    simp only [lookalikes, List.mem_cons, List.not_mem_nil, or_false] at hd
    rcases hd with rfl | rfl | rfl
    · exact ⟨by decide, by decide, ⟨by decide, by simp; decide, by decide⟩, by decide, by decide⟩
    · exact ⟨by decide, by decide, ⟨by decide, by simp, by decide⟩, by decide, by decide⟩
    · exact ⟨by decide, by decide, ⟨by decide, by simp; decide, by decide⟩, by decide, by decide⟩
  exact ⟨hissues, (ofReport_report lookalikes (by decide) (by decide) hissues).1⟩

end LintResult

end HelpAudit
