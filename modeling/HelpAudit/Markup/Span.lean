import HelpAudit.Text.Line

/-!
Anchors and links in help text. A candidate is a match of the markup's shape; candidates are found
from left to right, and the next search starts after the last candidate. Anchors are `*body*` and,
hidden, `*|body|*`; links are `|body|`. No body is empty or holds a delimiter or a line feed.
-/
namespace HelpAudit.Markup

open Text

/-- One piece of markup: the byte offset of its opening delimiter, and what stands inside. -/
structure Span where
  offset : Nat
  body : String
  deriving DecidableEq

/-- A match at the head of a text: what it holds, its length in bytes, and the text after it. -/
structure Match (α : Type) where
  value : α
  length : Nat
  rest : List Char

/-- A kind of markup, which starts and ends with its delimiter. -/
structure Shape (α : Type) where
  delimiter : Char
  match? : List Char → Option (Match α)
  shorter : ∀ {cs m}, match? cs = some m → m.rest.length < cs.length

/-- A match in its place: the byte offset of its first character and the characters next to it. -/
structure Candidate (α : Type) where
  offset : Nat
  before : Option Char
  after : Option Char
  value : α
  length : Nat

/-- The candidates in a text that starts at `offset`, after the character `before`. -/
def candidatesFrom {α : Type} (shape : Shape α) (offset : Nat) (before : Option Char)
    (cs : List Char) : List (Candidate α) :=
  match cs with
  | [] => []
  | c :: r =>
    match _h : shape.match? (c :: r) with
    | some m =>
      ⟨offset, before, m.rest.head?, m.value, m.length⟩
        :: candidatesFrom shape (offset + m.length) (some shape.delimiter) m.rest
    | none => candidatesFrom shape (offset + c.utf8Size) (some c) r
  termination_by cs.length
  decreasing_by
    · exact shape.shorter _h
    · simp

def candidates {α : Type} (shape : Shape α) (text : String) : List (Candidate α) :=
  candidatesFrom shape 0 none text.toList

def isAnchorBody (c : Char) : Bool := c != '*' && c != '|' && c != '\n'
def isLinkBody (c : Char) : Bool := c != '|' && c != '\n'

/-- Takes a bar off the head, if there is one. -/
def takeBar : List Char → Bool × List Char
  | '|' :: cs => (true, cs)
  | cs => (false, cs)

theorem takeBar_length_le (cs : List Char) : (takeBar cs).2.length ≤ cs.length := by
  unfold takeBar
  split <;> simp

/-- An anchor's body and the bars next to its stars. -/
structure AnchorParts where
  barBefore : Bool
  body : List Char
  barAfter : Bool
  deriving DecidableEq

/-- A star, perhaps a bar, a body, perhaps a bar, and a star. -/
def anchorMatch? : List Char → Option (Match AnchorParts)
  | '*' :: cs =>
    let opened := takeBar cs
    let body := opened.2.takeWhile isAnchorBody
    let closed := takeBar (opened.2.dropWhile isAnchorBody)
    if body.isEmpty then none
    else
      match closed.2 with
      | '*' :: rest =>
        some ⟨⟨opened.1, body, closed.1⟩,
          2 + opened.1.toNat + byteLength body + closed.1.toNat, rest⟩
      | _ => none
  | _ => none

/-- A bar, a body, and a bar. -/
def linkMatch? : List Char → Option (Match (List Char))
  | '|' :: cs =>
    let body := cs.takeWhile isLinkBody
    if body.isEmpty then none
    else
      match cs.dropWhile isLinkBody with
      | '|' :: rest => some ⟨body, 2 + byteLength body, rest⟩
      | _ => none
  | _ => none

def anchorShape : Shape AnchorParts where
  delimiter := '*'
  match? := anchorMatch?
  shorter := by
    intro cs m h
    unfold anchorMatch? at h
    split at h
    · next r =>
      have h₁ := takeBar_length_le r
      have h₂ := length_dropWhile_le isAnchorBody (takeBar r).2
      have h₃ := takeBar_length_le ((takeBar r).2.dropWhile isAnchorBody)
      simp only at h
      split at h
      · simp at h
      · split at h
        · next heq =>
          rw [heq] at h₃
          simp only [Option.some.injEq] at h
          simp only [List.length_cons, ← h] at h₃ ⊢
          omega
        · simp at h
    · simp at h

def linkShape : Shape (List Char) where
  delimiter := '|'
  match? := linkMatch?
  shorter := by
    intro cs m h
    unfold linkMatch? at h
    split at h
    · next r =>
      have h₁ := length_dropWhile_le isLinkBody r
      simp only at h
      split at h
      · simp at h
      · split at h
        · next heq =>
          rw [heq] at h₁
          simp only [Option.some.injEq] at h
          simp only [List.length_cons, ← h] at h₁ ⊢
          omega
        · simp at h
    · simp at h

/-- Bars stand on both sides or on neither. -/
def AnchorParts.isBalanced (a : AnchorParts) : Bool := a.barBefore == a.barAfter

/-- A bar pair between stars is a hidden anchor. -/
def Candidate.isLink (c : Candidate (List Char)) : Bool :=
  !(c.before == some '*' && c.after == some '*')

def anchors (text : String) : List Span :=
  ((candidates anchorShape text).filter (·.value.isBalanced)).map
    fun c => ⟨c.offset, .ofList c.value.body⟩

def links (text : String) : List Span :=
  ((candidates linkShape text).filter (·.isLink)).map fun c => ⟨c.offset, .ofList c.value⟩

end HelpAudit.Markup
