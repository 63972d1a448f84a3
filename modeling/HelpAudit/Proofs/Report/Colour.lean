import HelpAudit.Proofs.Report.RoundTrip

/-!
Reports with colours. A reader that jumps to places takes each line as it takes the plain one, and
without the codes of the colours the lines are the plain ones.
-/
namespace HelpAudit

open Text

namespace Jump

/-- What the reader makes of a line. -/
def reading (line : List Char) : Option (List Char) × Option (List Char × List Char × List Char) :=
  (file? line, issue? line)

/-- Lines that are taken alike, one by one, lead to the same places. -/
theorem scan_eq_of_reading {as bs : List (List Char)} (h : as.map reading = bs.map reading)
    (file : Option (List Char)) : scan file as = scan file bs := by
  induction as generalizing bs file with
  | nil =>
    obtain rfl := List.map_eq_nil_iff.mp h.symm
    rfl
  | cons a as ih =>
    obtain ⟨b, bs, rfl, hab, hrest⟩ := List.map_eq_cons_iff.mp h.symm
    obtain ⟨hfile, hissue⟩ := Prod.mk.injEq .. ▸ hab
    have hrest := ih hrest.symm
    rw [scan, scan, ← hfile, ← hissue]
    split
    · exact hrest _
    · rw [hrest]

/-- What stands before the `@` of a place does not matter. -/
theorem reading_of_colon {front before after : List Char} (hfront : '@' ∉ front)
    (hafter : after ≠ []) :
    reading (front ++ (before ++ ':' :: after)) = (none, issue? (before ++ ':' :: after)) := by
  rw [reading, issue?_append hfront, ← List.append_assoc, file?_eq_none_of_colon _ hafter]

end Jump

/-- A line of a report, by what it is for. -/
inductive ReportLine where
  | title
  | blank
  | heading (file : String)
  | issue (d : Diagnostic)
  | summary

/-- Only the lines of findings and the summary show colours. -/
def ReportLine.hasColour : ReportLine → Bool
  | .title | .blank | .heading _ => false
  | .issue _ | .summary => true

namespace LintResult

def lineText (r : LintResult) (color : Bool) : ReportLine → String
  | .title => r.titleLine
  | .blank => ""
  | .heading file => file ++ ":"
  | .issue d => issueLine color d
  | .summary => if color then bold r.summaryLine else r.summaryLine

/-- The lines above the summary. -/
def body (r : LintResult) : List ReportLine :=
  [.title, .blank] ++
    (groupByFile r.issues).flatMap fun g => .heading g.file :: g.issues.map .issue ++ [.blank]

def outline (r : LintResult) : List ReportLine := r.body ++ [.summary]

theorem lines_eq_map_outline (r : LintResult) (color : Bool) :
    r.lines color = r.outline.map (r.lineText color) := by
  simp [lines, outline, body, lineText, List.map_flatMap, Function.comp_def]
  rfl

theorem lineText_of_not_hasColour (r : LintResult) {l : ReportLine} (h : l.hasColour = false) :
    r.lineText true l = r.lineText false l := by
  cases l with
  | title => rfl
  | blank => rfl
  | heading file => rfl
  | issue d => cases h
  | summary => cases h

theorem not_mem_placeText {c : Char} (hdigit : c.isDigit = false) (hc : c ∉ ['@', ' ', ':'])
    (p : Position) : c ∉ (placeText p).toList := by
  have hdigits (n : Nat) : c ∉ Nat.toDigits 10 n := fun h => by
    rw [isDigit_of_mem_toDigits h] at hdigit
    cases hdigit
  simp_all [toList_placeText]

/-- More than a character follows the colon of a place. -/
theorem exists_placeText (p : Position) :
    ∃ before c after, (placeText p).toList = before ++ ':' :: c :: after ∧ after ≠ [] := by
  obtain ⟨d, ds, hcolumn⟩ := List.exists_cons_of_ne_nil (@Nat.toDigits_ne_nil p.column 10)
  have htext := toList_placeText p
  rw [hcolumn] at htext
  exact ⟨'@' :: ' ' :: Nat.toDigits 10 p.line, d, _, htext, by simp⟩

/-- The lines of a finding are taken alike with and without colours. -/
theorem readings_issueLine (d : Diagnostic) :
    ((pieces (issueLine true d).toList).map dropReturn).map Jump.reading =
      ((pieces (issueLine false d).toList).map dropReturn).map Jump.reading := by
  have hplace := not_mem_placeText (c := '\n') (by decide) (by decide) d.position
  obtain ⟨before, c, after, htext, hafter⟩ := exists_placeText d.position
  obtain ⟨first, rest, hmessage⟩ : ∃ first rest, pieces d.message.toList = first :: rest :=
    List.exists_cons_of_ne_nil (List.splitOnP_ne_nil _ _)
  have hpieces (color : Bool) : pieces (issueLine color d).toList =
      ((issueFront color d.severity).toList ++ (before ++ ':' :: c :: (after ++ first))) ::
        rest := by
    have hfront := (not_mem_issueFront color d.severity).2.2
    rw [issueLine_eq, String.toList_append, String.toList_append,
      pieces_append (by simp [hfront, hplace]) hmessage, htext]
    simp
  -- The carriage return that may end the first line comes after the place.
  have hreturn (front : List Char) :
      dropReturn (front ++ (before ++ ':' :: c :: (after ++ first))) =
        front ++ (before ++ ':' :: c :: dropReturn (after ++ first)) := by
    have hsplit (t : List Char) :
        front ++ (before ++ ':' :: c :: t) = front ++ before ++ [':', c] ++ t := by simp
    rw [hsplit, dropReturn_append _ (by simp [hafter]), ← hsplit]
  have hreading (color : Bool) : Jump.reading (dropReturn
      ((issueFront color d.severity).toList ++ (before ++ ':' :: c :: (after ++ first)))) =
      (none, Jump.issue? (before ++ ':' :: c :: dropReturn (after ++ first))) := by
    rw [hreturn]
    exact Jump.reading_of_colon (not_mem_issueFront color d.severity).1 (by simp)
  rw [hpieces, hpieces, List.map_cons, List.map_cons, List.map_cons, List.map_cons, hreading,
    hreading]

theorem reading_summary (r : LintResult) (color : Bool) :
    '\n' ∉ (r.lineText color .summary).toList ∧ (r.lineText color .summary).toList ≠ [] ∧
      Jump.reading (r.lineText color .summary).toList = (none, none) := by
  have hline := not_mem_summaryLine r (c := '\n') (by decide) (by decide)
  have hcolon := not_mem_summaryLine r (c := ':') (by decide) (by decide)
  have hat := not_mem_summaryLine r (c := '@') (by decide) (by decide)
  have hcodes (c : Char) (hc : c = '\n' ∨ c = ':' ∨ c = '@') :
      c ∉ (escape "1").toList ∧ c ∉ (escape "0").toList := by
    rcases hc with rfl | rfl | rfl <;> decide
  have hnone : Jump.file? (r.lineText color .summary).toList = none ∧
      Jump.issue? (r.lineText color .summary).toList = none := by
    cases color
    · exact Jump.file?_issue?_of_not_mem hcolon hat
    · apply Jump.file?_issue?_of_not_mem <;>
        simp [lineText, bold, hcolon, hat, hcodes]
  refine ⟨?_, ?_, Prod.ext hnone.1 hnone.2⟩
  · cases color
    · exact hline
    · simp [lineText, bold, hline, hcodes]
  · cases color
    · exact summaryLine_ne_nil r
    · simp [lineText, bold, summaryLine_ne_nil r]

/-- Places are read from the lines with colours as from those without. -/
theorem ofReport_coloured (r : LintResult) :
    Jump.ofReport ("\n".intercalate (r.lines true)) = Jump.ofReport r.report := by
  have hread (color : Bool) : (Text.lines ("\n".intercalate (r.lines color)).toList).map
      Jump.reading = (r.body.flatMap fun l =>
        ((pieces (r.lineText color l).toList).map dropReturn).map Jump.reading) ++
          [(none, none)] := by
    obtain ⟨hline, hne, hreading⟩ := r.reading_summary color
    have htext : ("\n".intercalate (r.lines color)).toList = ['\n'].intercalate
        (r.body.map (fun l => (r.lineText color l).toList) ++
          [(r.lineText color .summary).toList]) := by
      rw [String.toList_intercalate, lines_eq_map_outline, outline]
      simp [Function.comp_def]
    rw [htext, lines_intercalate_flatMap hline hne]
    simp [List.map_flatMap, hreading, List.flatMap_map]
  rw [report, Jump.ofReport, Jump.ofReport]
  apply Jump.scan_eq_of_reading
  rw [hread, hread]
  refine congrArg (· ++ [(none, none)]) (List.flatMap_congr fun l hl => ?_)
  cases l with
  | issue d => exact readings_issueLine d
  | summary => simp [body] at hl
  | _ => rfl

end LintResult

/-- How much of a text belongs to a code of a colour whose escape stands before it: a bracket,
numbers between semicolons, and an `m`. -/
def codeLength? : List Char → Option Nat
  | '[' :: cs =>
    let numbers := cs.takeWhile fun c => c.isDigit || c == ';'
    if cs[numbers.length]? = some 'm' then some (numbers.length + 2) else none
  | _ => none

/-- Deletes the codes of colours, and as many characters first as are still to be skipped. -/
def dropCodes : (skip : Nat) → List Char → List Char
  | _, [] => []
  | skip + 1, _ :: cs => dropCodes skip cs
  | 0, c :: cs =>
    match if c = '\x1b' then codeLength? cs else none with
    | some n => dropCodes n cs
    | none => c :: dropCodes 0 cs

theorem dropCodes_skip (skip : Nat) (cs : List Char) :
    dropCodes skip cs = dropCodes 0 (cs.drop skip) := by
  induction skip generalizing cs with
  | zero => rfl
  | succ skip ih =>
    cases cs with
    | nil => rfl
    | cons c cs => rw [dropCodes, ih, List.drop_succ_cons]

theorem dropCodes_append {text : List Char} (h : '\x1b' ∉ text) (rest : List Char) :
    dropCodes 0 (text ++ rest) = text ++ dropCodes 0 rest := by
  induction text with
  | nil => rfl
  | cons c text ih =>
    obtain ⟨hc, htext⟩ := not_or.mp (mt List.mem_cons.mpr h)
    rw [List.cons_append, dropCodes, if_neg (Ne.symm hc), ih htext, List.cons_append]

/-- A code of a colour is deleted. -/
theorem dropCodes_escape {code : String} (h : code.toList.all Char.isDigit = true)
    (rest : List Char) : dropCodes 0 ((escape code).toList ++ rest) = dropCodes 0 rest := by
  have hcode : (escape code).toList ++ rest = '\x1b' :: '[' :: (code.toList ++ 'm' :: rest) := by
    have hopen : "\x1b[".toList = ['\x1b', '['] := rfl
    have hclose : "m".toList = ['m'] := rfl
    simp [escape, hopen, hclose]
  have hnumbers : (code.toList ++ 'm' :: rest).takeWhile (fun c => c.isDigit || c == ';') =
      code.toList := by
    refine (takeWhile_append_of_head? (fun c hc => ?_) fun c hc => ?_).1
    · rw [List.all_eq_true.mp h c hc, Bool.true_or]
    · obtain rfl := Option.some.inj hc
      rfl
  have hlength : codeLength? ('[' :: (code.toList ++ 'm' :: rest)) =
      some (code.toList.length + 2) := by
    rw [codeLength?, hnumbers]
    simp
  rw [hcode, dropCodes, if_pos rfl, hlength]
  dsimp only
  rw [dropCodes_skip]
  simp

def withoutCodes (text : String) : String := .ofList (dropCodes 0 text.toList)

/-- Without its codes a text is the plain one, whatever comes after it. -/
def ShowsAs (text plain : String) : Prop :=
  ∀ rest, dropCodes 0 (text.toList ++ rest) = plain.toList ++ dropCodes 0 rest

namespace ShowsAs

variable {a b c d : String}

theorem of_not_mem (h : '\x1b' ∉ a.toList) : ShowsAs a a := dropCodes_append h

theorem append (hab : ShowsAs a b) (hcd : ShowsAs c d) : ShowsAs (a ++ c) (b ++ d) := by
  intro rest
  rw [String.toList_append, List.append_assoc, hab, hcd, String.toList_append, List.append_assoc]

theorem enclose {first last : String} (hfirst : first.toList.all Char.isDigit = true)
    (hlast : last.toList.all Char.isDigit = true) (h : ShowsAs a b) :
    ShowsAs (escape first ++ a ++ escape last) b := by
  intro rest
  rw [String.toList_append, String.toList_append, List.append_assoc, List.append_assoc,
    dropCodes_escape hfirst, h, dropCodes_escape hlast]

theorem bold (h : ShowsAs a b) : ShowsAs (bold a) b := enclose (by decide) (by decide) h

theorem paint (colour : Colour) (h : ShowsAs a b) : ShowsAs (colour.paint a) b :=
  enclose (by cases colour <;> decide) (by decide) h

theorem withoutCodes_eq (h : ShowsAs a b) : withoutCodes a = b := by
  have hdrop := h []
  rw [List.append_nil, dropCodes, List.append_nil] at hdrop
  rw [withoutCodes, hdrop, String.ofList_toList]

end ShowsAs

namespace LintResult

def strings (r : LintResult) : List String :=
  r.scope :: r.package :: r.files ++ r.issues.flatMap fun d => [d.rule, d.file, d.message]

theorem mem_strings_of_mem_issues {r : LintResult} {d : Diagnostic} (h : d ∈ r.issues) :
    d.file ∈ r.strings ∧ d.message ∈ r.strings := by
  have hstrings : [d.rule, d.file, d.message] ⊆ r.strings := fun s hs =>
    List.mem_append_right _ (List.mem_flatMap.mpr ⟨d, h, hs⟩)
  exact ⟨hstrings (by simp), hstrings (by simp)⟩

/-- A heading is the file of a finding. -/
theorem exists_issue_of_heading_mem {r : LintResult} {file : String}
    (h : .heading file ∈ r.outline) : ∃ d ∈ r.issues, d.file = file := by
  obtain ⟨g, hg, rfl⟩ : ∃ g ∈ groupByFile r.issues, file = g.file := by
    simpa [outline, body] using h
  exact exists_issue_of_mem hg

theorem mem_issues_of_issue_mem {r : LintResult} {d : Diagnostic} (h : .issue d ∈ r.outline) :
    d ∈ r.issues := by
  obtain ⟨g, hg, hd⟩ : ∃ g ∈ groupByFile r.issues, d ∈ g.issues := by
    simpa [outline, body] using h
  exact ((mem_issues_of_mem hg).mp hd).1

theorem showsAs_severityWord (s : Severity) :
    ShowsAs (severityWord true s) (severityWord false s) :=
  ((ShowsAs.of_not_mem (by cases s <;> decide)).paint _).bold

theorem showsAs_issueLine {d : Diagnostic} (h : '\x1b' ∉ d.message.toList) :
    ShowsAs (issueLine true d) (issueLine false d) := by
  have hplace := not_mem_placeText (c := '\x1b') (by decide) (by decide) d.position
  have hfront : ShowsAs (issueFront true d.severity) (issueFront false d.severity) :=
    ((ShowsAs.of_not_mem (by decide)).append (showsAs_severityWord _)).append
      (.of_not_mem (by decide))
  rw [issueLine_eq, issueLine_eq]
  exact (hfront.append (.of_not_mem hplace)).append (.of_not_mem h)

variable {r : LintResult} (h : ∀ s ∈ r.strings, '\x1b' ∉ s.toList)
include h

theorem escape_not_mem_titleLine : '\x1b' ∉ r.titleLine.toList := by
  have hpackage : '\x1b' ∉ r.package.toList := h _ (by simp [strings])
  unfold titleLine
  split
  · next file files hfiles =>
    have hfile : '\x1b' ∉ file.toList := h _ (by simp [strings, hfiles])
    split
    · simp [hfile, hpackage]
    · simp [hpackage]
  · simp [hpackage]

theorem showsAs_lineText {l : ReportLine} (hl : l ∈ r.outline) :
    ShowsAs (r.lineText true l) (r.lineText false l) := by
  cases l with
  | title => exact .of_not_mem (escape_not_mem_titleLine h)
  | blank => exact .of_not_mem (a := "") (by decide)
  | heading file =>
    obtain ⟨d, hd, rfl⟩ := exists_issue_of_heading_mem hl
    have hfile := h _ (mem_strings_of_mem_issues hd).1
    exact .of_not_mem (by simp [lineText, hfile])
  | issue d =>
    exact showsAs_issueLine (h _ (mem_strings_of_mem_issues (mem_issues_of_issue_mem hl)).2)
  | summary => exact (ShowsAs.of_not_mem (not_mem_summaryLine r (by decide) (by decide))).bold

omit h

/-- With colours a report has the same lines: places are read from it as from the plain one, only
the lines of findings and the summary look different, and without the codes of the colours these are
the plain ones, if no name and no message has an escape of its own. -/
theorem lines_coloured (r : LintResult) :
    Jump.ofReport ("\n".intercalate (r.lines true)) = Jump.ofReport r.report ∧
    (∀ color, r.lines color = r.outline.map (r.lineText color)) ∧
    (∀ (i : Nat) (l : ReportLine), r.outline[i]? = some l → l.hasColour = false →
      (r.lines true)[i]? = (r.lines false)[i]?) ∧
    ((∀ s ∈ r.strings, '\x1b' ∉ s.toList) → (r.lines true).map withoutCodes = r.lines false) := by
  refine ⟨ofReport_coloured r, lines_eq_map_outline r, fun i l hl hplain => ?_, fun h => ?_⟩
  · rw [lines_eq_map_outline, lines_eq_map_outline, List.getElem?_map, List.getElem?_map, hl,
      Option.map_some, Option.map_some, lineText_of_not_hasColour r hplain]
  · rw [lines_eq_map_outline, lines_eq_map_outline, List.map_map]
    exact List.map_congr_left fun l hl => (showsAs_lineText h hl).withoutCodes_eq

/-- Findings whose message goes on below and whose file looks like a place. -/
def tinted : LintResult where
  scope := "package"
  package := "Docs"
  files := ["a.txt"]
  issues := [⟨.error, "link", "b @ 1:2 x", ⟨3, 1⟩, "see\na.txt:\n@ 4:5 there"⟩,
    ⟨.info, "title", "a.txt", ⟨1, 1⟩, "[31m"⟩]
  summary := ⟨1, 0, 1, 1⟩

theorem tinted_lines : (∀ s ∈ tinted.strings, '\x1b' ∉ s.toList) ∧
    tinted.lines true ≠ tinted.lines false ∧
    (tinted.lines true).map withoutCodes = tinted.lines false := by
  have h : ∀ s ∈ tinted.strings, '\x1b' ∉ s.toList := by decide
  exact ⟨h, by decide +kernel, (lines_coloured tinted).2.2.2 h⟩

end LintResult

end HelpAudit
