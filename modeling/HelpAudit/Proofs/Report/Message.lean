import HelpAudit.Proofs.Report.Jump
import HelpAudit.Rule.Checker

/-!
Messages of findings. Where the names that a message shows hold no line feed, it fits on a line of a
report and is read back as it was written.
-/
namespace HelpAudit

open Text

/-- A text with which a message may start. -/
def opens (s : String) : Bool := !s.toList.contains '\n' && s.toList.head?.any (!isBlank ·)

/-- A text with which a message may end. -/
def closes (s : String) : Bool := !s.toList.contains '\n' && s.toList.getLast?.any (· != '\r')

section Enclosed

variable {a b c d x y z : String}

theorem opens_append (ha : opens a = true) (hx : '\n' ∉ x.toList) : opens (a ++ x) = true := by
  simp only [opens, Bool.and_eq_true, Option.any_eq_true] at ha ⊢
  obtain ⟨hline, e, hhead, hblank⟩ := ha
  refine ⟨by simpa [hx] using hline, e, ?_, hblank⟩
  rw [String.toList_append, List.head?_append, hhead, Option.some_or]

theorem isTidy_append (ha : opens a = true) (hb : closes b = true) : IsTidy (a ++ b) := by
  simp only [opens, closes, Bool.and_eq_true, Option.any_eq_true] at ha hb
  obtain ⟨hline, e, hhead, hblank⟩ := ha
  obtain ⟨hline', f, hlast, hreturn⟩ := hb
  refine ⟨?_, fun c hc => ?_, fun heq => ?_⟩
  · simp_all
  · rw [String.toList_append, List.head?_append, hhead, Option.some_or] at hc
    obtain rfl := Option.some.inj hc
    simpa using hblank
  · rw [String.toList_append, List.getLast?_append, hlast, Option.some_or] at heq
    obtain rfl := Option.some.inj heq
    simp at hreturn

theorem isTidy_one (h : opens a = true ∧ closes b = true) (hx : '\n' ∉ x.toList) :
    IsTidy (a ++ x ++ b) := isTidy_append (opens_append h.1 hx) h.2

theorem isTidy_two (h : opens a = true ∧ '\n' ∉ b.toList ∧ closes c = true)
    (hx : '\n' ∉ x.toList) (hy : '\n' ∉ y.toList) : IsTidy (a ++ x ++ b ++ y ++ c) :=
  isTidy_one ⟨opens_append (opens_append h.1 hx) h.2.1, h.2.2⟩ hy

theorem isTidy_three
    (h : opens a = true ∧ '\n' ∉ b.toList ∧ '\n' ∉ c.toList ∧ closes d = true)
    (hx : '\n' ∉ x.toList) (hy : '\n' ∉ y.toList) (hz : '\n' ∉ z.toList) :
    IsTidy (a ++ x ++ b ++ y ++ c ++ z ++ d) :=
  isTidy_two ⟨opens_append (opens_append h.1 hx) h.2.1, h.2.2⟩ hy hz

end Enclosed

namespace Anchor

/-- The names that a fault's message shows. -/
def Fault.names : Fault → List String
  | .hardSpace topic | .doubleSpace topic | .reserved topic | .unknown topic | .repeated topic =>
    [topic]
  | .elsewhere topic file => [topic, file]

theorem Fault.isTidy_message {f : Fault} (h : ∀ name ∈ f.names, '\n' ∉ name.toList) :
    IsTidy f.message := by
  cases f with
  | hardSpace topic => exact isTidy_one (by decide +kernel) (h topic (by simp [names]))
  | doubleSpace topic => exact isTidy_one (by decide +kernel) (h topic (by simp [names]))
  | reserved topic => exact isTidy_one (by decide +kernel) (h topic (by simp [names]))
  | unknown topic => exact isTidy_one (by decide +kernel) (h topic (by simp [names]))
  | elsewhere topic file =>
    exact isTidy_two (by decide +kernel) (h topic (by simp [names]))
      (h file (by simp [names]))
  | repeated topic => exact isTidy_one (by decide +kernel) (h topic (by simp [names]))

theorem isTidy_missingMessage {topic file : String} (ht : '\n' ∉ topic.toList)
    (hf : '\n' ∉ file.toList) : IsTidy (missingMessage topic file) :=
  isTidy_two (by decide +kernel) ht hf

end Anchor

namespace Link

def Fault.names : Fault → List String
  | .malformed name | .hardSpace name | .unknownPackage name | .unknownTopic name | .noFile name =>
    [name]
  | .otherFile named topic file => [named, topic, file]

theorem Fault.isTidy_message {f : Fault} (h : ∀ name ∈ f.names, '\n' ∉ name.toList) :
    IsTidy f.message := by
  cases f with
  | malformed body => exact isTidy_one (by decide +kernel) (h body (by simp [names]))
  | hardSpace topic => exact isTidy_one (by decide +kernel) (h topic (by simp [names]))
  | unknownPackage name => exact isTidy_one (by decide +kernel) (h name (by simp [names]))
  | unknownTopic topic => exact isTidy_one (by decide +kernel) (h topic (by simp [names]))
  | noFile file => exact isTidy_one (by decide +kernel) (h file (by simp [names]))
  | otherFile named topic file =>
    exact isTidy_three (by decide +kernel)
      (h named (by simp [names])) (h topic (by simp [names])) (h file (by simp [names]))

end Link

namespace Title

def Fault.file : Fault → String
  | .noHeader file | .otherTitle file => file

theorem Fault.isTidy_message {f : Fault} (h : '\n' ∉ f.file.toList) : IsTidy f.message := by
  cases f with
  | noHeader file => exact isTidy_one (by decide +kernel) h
  | otherTitle file => exact isTidy_one (by decide +kernel) h

end Title

section Files

variable {file docRoot : String}

theorem MissingSource.isTidy_unlistedMessage (hf : '\n' ∉ file.toList)
    (hr : '\n' ∉ docRoot.toList) : IsTidy (unlistedMessage file docRoot) :=
  isTidy_two (by decide +kernel) hf hr

theorem MissingSource.isTidy_absentMessage (hf : '\n' ∉ file.toList)
    (hr : '\n' ∉ docRoot.toList) : IsTidy (absentMessage file docRoot) :=
  isTidy_two (by decide +kernel) hf hr

theorem ContentsCoverage.isTidy_message (h : '\n' ∉ file.toList) : IsTidy (message file) :=
  isTidy_one (by decide +kernel) h

theorem Orphan.isTidy_message (h : '\n' ∉ file.toList) : IsTidy (message file) :=
  isTidy_one (by decide +kernel) h

end Files

end HelpAudit
