import HelpAudit.Proofs.Text
import HelpAudit.Report.Jump
import HelpAudit.Report.Text

/-!
Lines of a report read one by one. A line `name:` gives back a name that is not empty and has no
colon; a finding's line gives back its place and its message.
-/
namespace HelpAudit

open Text

/-- A message that a line of a report gives back. -/
structure IsTidy (message : String) : Prop where
  oneLine : '\n' ∉ message.toList
  start : ∀ c, message.toList.head? = some c → isBlank c = false
  finish : message.toList.getLast? ≠ some '\r'

/-- A name that the line `name:` gives back. -/
def canHead (file : String) : Bool := !file.toList.isEmpty && !file.toList.contains ':'

/-- Where a finding leads to when it stands below the name `file`. -/
def Diagnostic.jumpIn? (file : String) (d : Diagnostic) : Option Jump :=
  if d.position.line < Nat.pow 2 64 ∧ d.position.column < Nat.pow 2 64 then
    some ⟨file, d.position.line, d.position.column, d.message⟩
  else none

namespace Jump

variable {line rest message : List Char} {file : Option (List Char)}

theorem file?_eq_some_iff {name : List Char} :
    file? line = some name ↔ name ≠ [] ∧ ':' ∉ name ∧ line = name ++ [':'] := by
  have hdrop {name : List Char} (hc : ':' ∉ name) :
      (name ++ [':']).dropWhile (· != ':') = [':'] := by
    refine (takeWhile_append_of_head? (fun c hm => ?_) fun c hm => ?_).2
    · exact bne_iff_ne.mpr fun heq => hc (heq ▸ hm)
    · cases hm
      rfl
  constructor
  · intro h
    unfold file? at h
    split at h
    · next c heq =>
      split at h
      · cases h
      · next hlength =>
        obtain rfl := Option.some.inj h
        have hsplit := @List.takeWhile_append_dropWhile _ (· != ':') line
        have hc : (c != ':') = false := by
          have hhead := List.head?_dropWhile_not (· != ':') line
          rw [heq] at hhead
          simpa using hhead
        rw [heq, bne_eq_false_iff_eq.mp hc] at hsplit
        rw [← hsplit, List.dropLast_concat]
        refine ⟨?_, fun hm => ?_, rfl⟩
        · intro hnil
          rw [hnil] at hsplit
          exact hlength (by rw [← hsplit]; rfl)
        · have hne := List.all_eq_true.mp List.all_takeWhile _ hm
          exact absurd rfl (bne_iff_ne.mp hne)
    · cases h
  · rintro ⟨hne, hc, rfl⟩
    unfold file?
    rw [hdrop hc, List.dropLast_concat]
    simp [hne]

/-- A colon inside a line keeps it from being a name's. -/
theorem file?_eq_none_of_colon (before : List Char) (h : rest ≠ []) :
    file? (before ++ ':' :: rest) = none := by
  refine Option.eq_none_iff_forall_ne_some.mpr fun name hname => ?_
  obtain ⟨-, hc, heq⟩ := file?_eq_some_iff.mp hname
  rw [← List.dropLast_concat_getLast h, ← List.cons_append, ← List.append_assoc] at heq
  have hname' := (List.append_inj' heq rfl).1
  exact hc (by simp [← hname'])

theorem file?_heading (name : String) : file? (name.toList ++ [':']) =
    if canHead name then some name.toList else none := by
  split
  · next h =>
    rw [canHead] at h
    exact file?_eq_some_iff.mpr (by simpa using h)
  · next h =>
    refine Option.eq_none_iff_forall_ne_some.mpr fun other hother => ?_
    obtain ⟨hne, hc, heq⟩ := file?_eq_some_iff.mp hother
    obtain rfl := (List.append_inj' heq rfl).1
    exact h (by simp [canHead, hne, hc])

theorem issue?_append {before : List Char} (h : '@' ∉ before) (rest : List Char) :
    issue? (before ++ rest) = issue? rest := by
  induction before with
  | nil => rfl
  | cons c before ih =>
    rw [List.mem_cons, not_or] at h
    rw [List.cons_append, ← ih h.2, issue?]
    rintro - rfl
    exact absurd rfl h.1

/-- A line without a colon or an `@` names no file and no place. -/
theorem file?_issue?_of_not_mem (hcolon : ':' ∉ line) (hat : '@' ∉ line) :
    file? line = none ∧ issue? line = none := by
  constructor
  · refine Option.eq_none_iff_forall_ne_some.mpr fun name hname => hcolon ?_
    rw [(file?_eq_some_iff.mp hname).2.2]
    simp
  · rw [← List.append_nil line, issue?_append hat]
    rfl

theorem digits?_append {ds : List Char} (hne : ds ≠ []) (hd : ∀ c ∈ ds, isDecimal c = true)
    (rest : List Char) (hr : ∀ c, rest.head? = some c → isDecimal c = false) :
    digits? (ds ++ rest) = some (ds, rest) := by
  obtain ⟨htake, hdrop⟩ := takeWhile_append_of_head? hd hr
  have hempty : ds.isEmpty = false := by simpa using hne
  simp [digits?, htake, hdrop, hempty]

/-- A place that is written with a colon, and a message that blanks keep apart from it. -/
theorem place?_written {ls cs : List Char} (hl : ls ≠ []) (hls : ∀ c ∈ ls, isDecimal c = true)
    (hc : cs ≠ []) (hcs : ∀ c ∈ cs, isDecimal c = true) (blanks : Nat)
    (hm : ∀ c, message.head? = some c → isBlank c = false) :
    place? (ls ++ ':' :: (cs ++ (List.replicate (blanks + 1) ' ' ++ message))) =
      some (ls, cs, message) := by
  have hspace : isBlank ' ' = true := by decide
  have hblank : (List.replicate (blanks + 1) ' ' ++ message).dropWhile isBlank = message := by
    refine (takeWhile_append_of_head? (fun c h => ?_) hm).2
    rw [List.eq_of_mem_replicate h, hspace]
  rw [place?, digits?_append hl hls]
  · simp only [Option.bind_eq_bind, Option.bind_some]
    rw [digits?_append hc hcs]
    · change (if isBlank ' ' = true then some (ls, cs,
        (List.replicate (blanks + 1) ' ' ++ message).dropWhile isBlank) else none) = _
      rw [if_pos hspace, hblank]
    · intro c h
      cases h
      decide
  · intro c h
    cases h
    decide

theorem isDecimal_of_mem_toDigits {n : Nat} : ∀ c ∈ Nat.toDigits 10 n, isDecimal c = true :=
  fun _ hc => isDecimal_of_isDigit (isDigit_of_mem_toDigits hc)

theorem number?_toDigits (n : Nat) :
    number? (Nat.toDigits 10 n) = if n < Nat.pow 2 64 then some n else none := by
  rw [number?, natural?_toDigits]

end Jump

namespace LintResult

/-! A finding's line is its severity in front, its place, and its message. -/

def issueFront (color : Bool) (s : Severity) : String := "    " ++ severityWord color s ++ " "

def placeText (p : Position) : String := "@ " ++ padEnd 7 (positionText p) ++ " "

theorem issueLine_eq (color : Bool) (d : Diagnostic) :
    issueLine color d = issueFront color d.severity ++ placeText d.position ++ d.message := by
  apply String.toList_injective
  simp [issueLine, issueFront, placeText]

theorem not_mem_issueFront (color : Bool) (s : Severity) : '@' ∉ (issueFront color s).toList ∧
    ':' ∉ (issueFront color s).toList ∧ '\n' ∉ (issueFront color s).toList := by
  cases color <;> cases s <;> decide

/-- A place with its numbers written out. -/
theorem toList_placeText (p : Position) : (placeText p).toList =
    '@' :: ' ' :: (Nat.toDigits 10 p.line ++ ':' :: (Nat.toDigits 10 p.column ++
      List.replicate (7 - (positionText p).length + 1) ' ')) := by
  have hat : "@ ".toList = ['@', ' '] := rfl
  have hcolon : ":".toList = [':'] := rfl
  have hblank : " ".toList = [' '] := rfl
  simp only [placeText, padEnd, positionText, String.toList_append, String.toList_ofList,
    toList_toString, hat, hcolon, hblank, List.append_assoc, List.cons_append, List.nil_append,
    List.replicate_succ']

theorem toList_issueLine (d : Diagnostic) : ∃ blanks, (issueLine false d).toList =
    (issueFront false d.severity).toList ++ '@' :: ' ' :: (Nat.toDigits 10 d.position.line ++
      ':' :: (Nat.toDigits 10 d.position.column ++
        (List.replicate (blanks + 1) ' ' ++ d.message.toList))) := by
  refine ⟨7 - (positionText d.position).length, ?_⟩
  rw [issueLine_eq, String.toList_append, String.toList_append, toList_placeText]
  simp only [List.append_assoc, List.cons_append]

variable {d : Diagnostic}

theorem issue?_issueLine (h : IsTidy d.message) : Jump.issue? (issueLine false d).toList =
    some (Nat.toDigits 10 d.position.line, Nat.toDigits 10 d.position.column,
      d.message.toList) := by
  obtain ⟨blanks, hline⟩ := toList_issueLine d
  rw [hline, Jump.issue?_append (not_mem_issueFront false d.severity).1, Jump.issue?,
    Jump.place?_written Nat.toDigits_ne_nil Jump.isDecimal_of_mem_toDigits Nat.toDigits_ne_nil
      Jump.isDecimal_of_mem_toDigits blanks h.start, Option.some_or]

theorem file?_issueLine (d : Diagnostic) : Jump.file? (issueLine false d).toList = none := by
  obtain ⟨blanks, hline⟩ := toList_issueLine d
  rw [hline, List.append_cons, List.append_cons, ← List.append_assoc]
  exact Jump.file?_eq_none_of_colon _ (by simp)

theorem newline_not_mem_issueLine (h : IsTidy d.message) : '\n' ∉ (issueLine false d).toList := by
  have hdigits : ∀ n, '\n' ∉ Nat.toDigits 10 n := fun n hm =>
    absurd (Jump.isDecimal_of_mem_toDigits _ hm) (by decide)
  obtain ⟨blanks, hline⟩ := toList_issueLine d
  rw [hline]
  simp [(not_mem_issueFront false d.severity).2.2, hdigits, h.oneLine]

/-- No line of a finding ends in a carriage return, as the blank before the message is none. -/
theorem dropReturn_issueLine (h : IsTidy d.message) :
    dropReturn (issueLine false d).toList = (issueLine false d).toList := by
  obtain ⟨blanks, hline⟩ := toList_issueLine d
  refine dropReturn_of_getLast?_ne ?_
  rw [hline, List.append_cons, List.append_cons, ← List.append_assoc, List.append_cons _ ':',
    ← List.append_assoc, ← List.append_assoc, List.getLast?_append]
  cases hlast : d.message.toList.getLast? with
  | some c => exact fun heq => h.finish (hlast.trans heq)
  | none =>
    rw [Option.none_or, List.replicate_succ', ← List.append_assoc, List.getLast?_concat]
    decide

end LintResult

end HelpAudit
