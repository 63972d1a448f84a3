import HelpAudit.Index.Manifest
import HelpAudit.Proofs.Json.Printer
import HelpAudit.Proofs.Report.Colour
import HelpAudit.Report.Json

/-!
A result read back off what is printed of it. The JSON text gives the whole result back. The lines
of a report give back each finding, all but the name of its rule, below the heading of its file.
-/
namespace HelpAudit

open Index.Manifest (text?)

namespace Json

namespace Written

/-- The value of the first member with a name. -/
def member? (name : String) : Written → Option Written
  | .object members => members.lookup (some name)
  | _ => none

/-- What the value of a member tells. -/
def field? {α : Type} (name : String) (tell : Written → Option α) (w : Written) : Option α :=
  (w.member? name).bind tell

/-- What the items of an array tell, all of them. -/
def list? {α : Type} (tell : Written → Option α) : Written → Option (List α)
  | .array items => items.mapM tell
  | _ => none

/-- A number without sign, fraction and exponent. -/
def count? : Written → Option Nat
  | .number ⟨false, ds, none, none⟩ => Text.natural? ds
  | _ => none

end Written

/-- The printed value tells `x`. -/
def Shows {α : Type} (tell : Written → Option α) (v : Json) (x : α) : Prop :=
  ∃ w, Reads v w ∧ tell w = some x

theorem shows_string (s : String) : Shows text? (.string s) s :=
  ⟨.string (some s), Reads.string s, rfl⟩

theorem shows_array {α : Type} {tell : Written → Option α} {print : α → Json}
    (h : ∀ x, Shows tell (print x) x) (xs : List α) :
    Shows (Written.list? tell) (.array (xs.map print)) xs := by
  suffices hitems : ∃ ws, List.Forall₂ Reads (xs.map print) ws ∧ ws.mapM tell = some xs by
    obtain ⟨ws, hreads, htells⟩ := hitems
    exact ⟨.array ws, Reads.array hreads, htells⟩
  induction xs with
  | nil => exact ⟨[], .nil, rfl⟩
  | cons x xs ih =>
    obtain ⟨w, hread, htell⟩ := h x
    obtain ⟨ws, hreads, htells⟩ := ih
    exact ⟨w :: ws, .cons hread hreads, by simp [htell, htells]⟩

/-- The members of an object are read one by one. -/
theorem shows_object {α : Type} {tell : Written → Option α} {x : α}
    {members : List (String × Json)} {ws : List Written}
    (h : List.Forall₂ (fun m w => Reads m.2 w) members ws)
    (htell : tell (.object ((members.map fun m => some m.1).zip ws)) = some x) :
    Shows tell (.object members) x := by
  refine ⟨_, Reads.object ?_, htell⟩
  clear htell
  induction h with
  | nil => exact .nil
  | cons hread _ ih => exact .cons ⟨rfl, hread⟩ ih

end Json

open Json Written

def Severity.ofWord? : String → Option Severity
  | "info" => some .info
  | "warning" => some .warning
  | "error" => some .error
  | _ => none

theorem Severity.ofWord?_word (s : Severity) : ofWord? s.word = some s := by
  cases s <;> rfl

def Diagnostic.ofWritten? (w : Written) : Option Diagnostic := do
  let word ← w.field? "severity" text?
  return {
    severity := ← Severity.ofWord? word
    rule := ← w.field? "rule" text?
    file := ← w.field? "file" text?
    position := ⟨← w.field? "line" count?, ← w.field? "column" count?⟩
    message := ← w.field? "message" text? }

def Summary.ofWritten? (w : Written) : Option Summary := do
  return {
    errors := ← w.field? "errors" count?
    warnings := ← w.field? "warnings" count?
    infos := ← w.field? "infos" count?
    files := ← w.field? "files" count? }

def LintResult.ofWritten? (w : Written) : Option LintResult := do
  return {
    scope := ← w.field? "scope" text?
    package := ← w.field? "package" text?
    files := ← w.field? "files" (list? text?)
    issues := ← w.field? "issues" (list? Diagnostic.ofWritten?)
    summary := ← w.field? "summary" Summary.ofWritten? }

/-- The result that a JSON text holds. -/
def LintResult.ofJson? (text : String) : Option LintResult :=
  (Written.parse? text).bind ofWritten?

theorem Diagnostic.shows_toJson (d : Diagnostic) : Shows ofWritten? d.toJson d := by
  rw [toJson]
  refine shows_object (.cons (Reads.string _) <| .cons (Reads.string _) <| .cons (Reads.string _) <|
    .cons (Reads.natural _) <| .cons (Reads.natural _) <| .cons (Reads.string _) .nil) ?_
  simp [ofWritten?, field?, member?, List.lookup_cons, text?, count?, Text.natural?_toDigits,
    Severity.ofWord?_word]

theorem Summary.shows_toJson (s : Summary) : Shows ofWritten? s.toJson s := by
  rw [toJson]
  refine shows_object (.cons (Reads.natural _) <| .cons (Reads.natural _) <|
    .cons (Reads.natural _) <| .cons (Reads.natural _) .nil) ?_
  simp [ofWritten?, field?, member?, List.lookup_cons, count?, Text.natural?_toDigits]

namespace LintResult

theorem shows_toJson (r : LintResult) : Shows ofWritten? r.toJson r := by
  obtain ⟨files, hfiles, hfiles'⟩ := shows_array shows_string r.files
  obtain ⟨issues, hissues, hissues'⟩ := shows_array Diagnostic.shows_toJson r.issues
  obtain ⟨summary, hsummary, hsummary'⟩ := r.summary.shows_toJson
  rw [toJson]
  refine shows_object (.cons (Reads.string _) <| .cons (Reads.string _) <| .cons hfiles <|
    .cons hissues <| .cons hsummary .nil) ?_
  simp [ofWritten?, field?, member?, List.lookup_cons, text?, hfiles', hissues', hsummary']

/-- The printed JSON gives the result back. -/
theorem ofJson?_pretty (r : LintResult) : ofJson? (r.toJson.pretty ++ "\n") = some r := by
  obtain ⟨w, hread, htell⟩ := r.shows_toJson
  have hspace : IsSpacing ['\n'] := List.forall_mem_singleton.mpr rfl
  have hbreak : "\n".toList = ['\n'] := rfl
  have htext : (r.toJson.pretty ++ "\n").toList = r.toJson.pretty.toList ++ ['\n'] := by
    rw [String.toList_append, hbreak]
  rw [ofJson?, hread.parse?_eq hspace htext, Option.bind_some, htell]

end LintResult

/-- What a report shows of a finding: all but the name of its rule. -/
def Diagnostic.shown (d : Diagnostic) : Severity × Jump := (d.severity, d.jump)

namespace LintResult

/-- The severity that the line of a finding starts with, and what stands behind it. -/
def severity? (color : Bool) (line : List Char) : Option (Severity × List Char) :=
  [Severity.info, .warning, .error].findSome? fun s =>
    ((issueFront color s).toList.isPrefixOf? line).map (s, ·)

/-- The place that follows the severity, and the message behind the column that places take up. It
keeps the blanks that a message starts with, which a jump to the place passes over. -/
def place? : List Char → Option (Position × List Char)
  | '@' :: ' ' :: cs => do
    let (line, cs) ← Jump.digits? cs
    match cs with
    | ':' :: cs =>
      let (column, cs) ← Jump.digits? cs
      let width := line.length + 1 + column.length
      return (⟨← Text.natural? line, ← Text.natural? column⟩, cs.drop (7 - width + 1))
    | _ => none
  | _ => none

/-- A finding of a file that a line shows. -/
def shownIn? (color : Bool) (file : String) (line : String) : Option (Severity × Jump) := do
  let (severity, cs) ← severity? color line.toList
  let (position, message) ← place? cs
  return (severity, ⟨file, position.line, position.column, .ofList message⟩)

/-- Reads the lines of groups. `file` is the one whose findings stand here; between two groups there
is none, and the next line is a heading. -/
def readBelow (color : Bool) : (file : Option String) → List String → List (Severity × Jump)
  | _, [] => []
  | none, line :: rest => readBelow color (some (.ofList line.toList.dropLast)) rest
  | some file, line :: rest =>
    if line = "" then readBelow color none rest
    else (shownIn? color file line).toList ++ readBelow color (some file) rest

/-- The findings that the lines of a report show, below its title. -/
def readLines (color : Bool) (lines : List String) : List (Severity × Jump) :=
  readBelow color none (lines.drop 2)

variable {color : Bool}

/-- The fronts of all severities take up as much, so none stands in front of another. -/
theorem issueFront_append_inj {s t : Severity} {cs ds : List Char}
    (h : (issueFront color t).toList ++ cs = (issueFront color s).toList ++ ds) : t = s := by
  have hlength : (issueFront color t).toList.length = (issueFront color s).toList.length := by
    cases color <;> cases s <;> cases t <;> decide +kernel
  have hfront := (List.append_inj h hlength).1
  revert hfront
  cases color <;> cases s <;> cases t <;> decide +kernel

theorem severity?_issueFront (s : Severity) (rest : List Char) :
    severity? color ((issueFront color s).toList ++ rest) = some (s, rest) := by
  have hself : (issueFront color s).toList.isPrefixOf? ((issueFront color s).toList ++ rest) =
      some rest := List.isPrefixOf?_eq_some_iff_append_eq.mpr rfl
  have hother {t : Severity} (ht : t ≠ s) :
      (issueFront color t).toList.isPrefixOf? ((issueFront color s).toList ++ rest) = none := by
    refine Option.eq_none_iff_forall_ne_some.mpr fun cs hcs => ht ?_
    exact issueFront_append_inj (List.isPrefixOf?_eq_some_iff_append_eq.mp hcs)
  cases s <;> simp [severity?, hself, hother]

theorem length_positionText (p : Position) : (positionText p).length =
    (Nat.toDigits 10 p.line).length + 1 + (Nat.toDigits 10 p.column).length := by
  have hcolon : ":".toList.length = 1 := rfl
  rw [positionText, ← String.length_toList, String.toList_append, String.toList_append,
    List.length_append, List.length_append, Text.toList_toString, Text.toList_toString, hcolon]

theorem place?_placeText (p : Position) (message : List Char) :
    place? ((placeText p).toList ++ message) = some (p, message) := by
  have hline := Jump.digits?_append (@Nat.toDigits_ne_nil p.line 10)
    Jump.isDecimal_of_mem_toDigits
  have hcolumn := Jump.digits?_append (@Nat.toDigits_ne_nil p.column 10)
    Jump.isDecimal_of_mem_toDigits
  rw [toList_placeText, length_positionText]
  simp only [List.cons_append, List.append_assoc]
  rw [place?, hline]
  · simp only [Option.bind_eq_bind, Option.bind_some]
    rw [hcolumn]
    · simp [Text.natural?_toDigits, List.drop_left']
    · intro c hc
      cases hc
      decide
  · intro c hc
    cases hc
    decide

theorem shownIn?_issueLine (d : Diagnostic) :
    shownIn? color d.file (issueLine color d) = some d.shown := by
  rw [shownIn?, issueLine_eq, String.toList_append, String.toList_append, List.append_assoc,
    severity?_issueFront]
  simp [place?_placeText, Diagnostic.shown, Diagnostic.jump]

theorem issueLine_ne_empty (d : Diagnostic) : issueLine color d ≠ "" := by
  intro h
  simpa [issueLine] using congrArg String.toList h

theorem readBelow_issueLines {file : String} {issues : List Diagnostic}
    (h : ∀ d ∈ issues, d.file = file) (rest : List String) :
    readBelow color (some file) (issues.map (issueLine color) ++ "" :: rest) =
      issues.map Diagnostic.shown ++ readBelow color none rest := by
  induction issues with
  | nil => simp [readBelow]
  | cons d issues ih =>
    obtain ⟨rfl, hissues⟩ := List.forall_mem_cons.mp h
    rw [List.map_cons, List.cons_append, readBelow, if_neg (issueLine_ne_empty d),
      shownIn?_issueLine, ih hissues]
    rfl

theorem readBelow_groupLines {gs : List IssueGroup} (h : ∀ g ∈ gs, ∀ d ∈ g.issues, d.file = g.file)
    (last : String) : readBelow color none (gs.flatMap (groupLines color) ++ [last]) =
      (gs.flatMap (·.issues)).map Diagnostic.shown := by
  induction gs with
  | nil => rfl
  | cons g gs ih =>
    obtain ⟨hg, hgs⟩ := List.forall_mem_cons.mp h
    have hcolon : ":".toList = [':'] := rfl
    have hheading : String.ofList (g.file ++ ":").toList.dropLast = g.file := by
      rw [String.toList_append, hcolon, List.dropLast_concat, String.ofList_toList]
    simp only [List.flatMap_cons, groupLines, List.append_assoc, List.cons_append, List.nil_append]
    rw [readBelow, hheading, readBelow_issueLines hg, ih hgs, List.map_append]

/-- The lines of a report show its findings, those of each file together and in order. -/
theorem readLines_lines (color : Bool) (r : LintResult) : readLines color (r.lines color) =
    ((groupByFile r.issues).flatMap (·.issues)).map Diagnostic.shown :=
  readBelow_groupLines (fun _ hg _ hd => ((mem_issues_of_mem hg).mp hd).2) _

/-- The lines of a report are lines of its text, if no name and no message has a line feed. -/
theorem newline_not_mem_of_mem_lines {r : LintResult} (h : ∀ s ∈ r.strings, '\n' ∉ s.toList)
    {line : String} (hline : line ∈ r.lines color) : '\n' ∉ line.toList := by
  rw [lines_eq_map_outline] at hline
  obtain ⟨l, hl, rfl⟩ := List.mem_map.mp hline
  cases l with
  | title =>
    obtain ⟨start, htitle, hstart⟩ := toList_titleLine r
    have hpackage : '\n' ∉ r.package.toList := h _ (by simp [strings])
    have hfile : ∀ file ∈ r.files.head?, '\n' ∉ file.toList := fun file hfile =>
      h _ (by simp [strings, List.mem_of_mem_head? hfile])
    rw [lineText, htitle]
    simp [hstart hfile, hpackage]
  | blank => simp [lineText]
  | heading file =>
    obtain ⟨d, hd, rfl⟩ := exists_issue_of_heading_mem hl
    have hfile := h _ (mem_strings_of_mem_issues hd).1
    simp [lineText, hfile]
  | issue d =>
    have hmessage := h _ (mem_strings_of_mem_issues (mem_issues_of_issue_mem hl)).2
    have hfront := (not_mem_issueFront color d.severity).2.2
    have hplace := not_mem_placeText (c := '\n') (by decide) (by decide) d.position
    rw [lineText, issueLine_eq]
    simp [hfront, hplace, hmessage]
  | summary => exact (reading_summary r color).1

end LintResult

end HelpAudit
