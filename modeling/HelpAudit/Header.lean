import HelpAudit.Text.Blank
import HelpAudit.Text.Digit
import HelpAudit.Text.Line

/-!
The header line of a help file: the sigil, then attributes `key="value"`, each after white space.
A header needs a title and an ISO date; of two attributes with one key the last counts.
-/
namespace HelpAudit

structure Header where
  title : String
  date : String
  deriving DecidableEq

namespace Header

open Text

def sigil : List Char := "%hyperhelp".toList

def isKeyStart (c : Char) : Bool := c.isAlpha || c == '_'
def isKeyChar (c : Char) : Bool := c.isAlphanum || c == '_'

structure Attribute where
  key : List Char
  value : List Char
  deriving DecidableEq

/-- Reads `key="value"` at the head of the text; a value holds no quote. -/
def attribute? (cs : List Char) : Option (Attribute × List Char) :=
  match cs with
  | [] => none
  | c :: _ =>
    if isKeyStart c then
      match cs.dropWhile isKeyChar with
      | '=' :: '"' :: rest =>
        match rest.dropWhile (· != '"') with
        | _ :: after => some (⟨cs.takeWhile isKeyChar, rest.takeWhile (· != '"')⟩, after)
        | [] => none
      | _ => none
    else none

theorem attribute?_shorter {cs rest : List Char} {a : Attribute}
    (h : attribute? cs = some (a, rest)) : rest.length < cs.length := by
  unfold attribute? at h
  split at h
  · simp at h
  · next c r =>
    split at h
    · split at h
      · next tail htail =>
        split at h
        · next q after hafter =>
          have h₁ := length_dropWhile_le isKeyChar (c :: r)
          have h₂ := length_dropWhile_le (· != '"') tail
          rw [htail] at h₁
          rw [hafter] at h₂
          simp only [Option.some.injEq, Prod.mk.injEq] at h
          simp only [List.length_cons] at h₁ h₂ ⊢
          rw [← h.2]
          omega
        · simp at h
      · simp at h
    · simp at h

/-- The attributes that fill a text, each after white space, with white space allowed at the end. -/
def attributes? (cs : List Char) : Option (List Attribute) :=
  match cs with
  | [] => some []
  | c :: r =>
    if isBlank c then
      match _hr : r.dropWhile isBlank with
      | [] => some []
      | d :: s =>
        match _h : attribute? (d :: s) with
        | none => none
        | some (a, rest) => (attributes? rest).map (a :: ·)
    else none
  termination_by cs.length
  decreasing_by
    have h₁ := attribute?_shorter _h
    have h₂ := length_dropWhile_le isBlank r
    rw [_hr] at h₂
    simp only [List.length_cons] at *
    omega

/-- The last value given for a key. -/
def valueOf? (attributes : List Attribute) (key : List Char) : Option (List Char) :=
  (attributes.reverse.find? (·.key == key)).map (·.value)

/-- The number written by two digits lies from 1 to `most`. -/
def isOrdinal (most : Nat) (tens units : Char) : Bool :=
  match natural? [tens, units] with
  | some n => 1 ≤ n && n ≤ most
  | none => false

/-- Year, month and day. The year's digits may be of any script. -/
def isIsoDate : List Char → Bool
  | [y₁, y₂, y₃, y₄, '-', m₁, m₂, '-', d₁, d₂] =>
    isDecimal y₁ && isDecimal y₂ && isDecimal y₃ && isDecimal y₄
      && isOrdinal 12 m₁ m₂ && isOrdinal 31 d₁ d₂
  | _ => false

/-- Line ends after the line are no part of it. -/
def withoutLineEnd (line : List Char) : List Char :=
  (line.reverse.dropWhile fun c => c == '\r' || c == '\n').reverse

def parse? (line : String) : Option Header :=
  match sigil.isPrefixOf? (withoutLineEnd line.toList) with
  | none => none
  | some rest => do
    let attributes ← attributes? rest
    let title ← valueOf? attributes "title".toList
    let date ← valueOf? attributes "date".toList
    if isIsoDate date then some ⟨.ofList title, .ofList date⟩ else none

end Header

end HelpAudit
