import HelpAudit.Diagnostic
import HelpAudit.Proofs.Markup.Candidate

/-!
Places in a text. The place of a character is reached by walking over the characters before it. Of
two characters the later one has the later place, and a place leads back to its character. So a
span is found again at its place, and spans keep their order.
-/
namespace HelpAudit.Position

open Text

/-- The place behind a character. -/
def next (p : Position) (c : Char) : Position :=
  if c = '\n' then ⟨p.line + 1, 1⟩ else ⟨p.line, p.column + 1⟩

/-- The place of what follows a text. -/
def after (before : List Char) : Position := before.foldl next .start

/-- The same column, `n` lines further down. -/
def below (n : Nat) (p : Position) : Position := ⟨p.line + n, p.column⟩

/-- An earlier line, or an earlier column of the same line. -/
def Precedes (p q : Position) : Prop := p.line < q.line ∨ p.line = q.line ∧ p.column < q.column

/-- The character in this column of this line. -/
def charAt? (cs : List Char) : Position → Option Char
  | ⟨line + 1, column + 1⟩ => (pieces cs)[line]?.bind (·[column]?)
  | _ => none

variable {before rest : List Char} {p q r : Position}

theorem advance_byteLength (before rest : List Char) (line chars bytes : Nat) :
    advance line chars bytes (byteLength before) (before ++ rest) =
      before.foldl next ⟨line, chars + 1⟩ := by
  induction before generalizing line chars bytes with
  | nil => cases rest <;> rfl
  | cons c before ih =>
    have hpos := c.utf8Size_pos
    have hzero : byteLength (c :: before) ≠ 0 := by
      rw [byteLength_cons]
      omega
    have hin : ¬ byteLength (c :: before) < c.utf8Size := by
      rw [byteLength_cons]
      omega
    have hrest : byteLength (c :: before) - c.utf8Size = byteLength before := by
      rw [byteLength_cons, Nat.add_sub_cancel_left]
    rw [List.cons_append, advance, if_neg hzero, if_neg hin, hrest, ih, ih, List.foldl_cons, next]
    split <;> rfl

/-- The offset at which the text is cut leads to the place behind its first part. -/
theorem ofOffset_byteLength {text : String} (h : text.toList = before ++ rest) :
    ofOffset text (byteLength before) = after before := by
  rw [ofOffset, h, advance_byteLength]
  rfl

theorem foldl_next_below (n : Nat) (p : Position) (cs : List Char) :
    cs.foldl next (p.below n) = (cs.foldl next p).below n := by
  induction cs generalizing p with
  | nil => rfl
  | cons c cs ih =>
    have hnext : next (p.below n) c = (next p c).below n := by
      unfold next below
      split
      · rw [Nat.add_right_comm]
      · rfl
    rw [List.foldl_cons, List.foldl_cons, hnext, ih]

theorem foldl_next_of_not_mem {line : List Char} (h : '\n' ∉ line) (p : Position) :
    line.foldl next p = ⟨p.line, p.column + line.length⟩ := by
  induction line generalizing p with
  | nil => rfl
  | cons c line ih =>
    obtain ⟨hc, hline⟩ := not_or.mp (mt List.mem_cons.mpr h)
    rw [List.foldl_cons, ih hline, next, if_neg (Ne.symm hc), List.length_cons]
    exact congrArg (Position.mk _) (by dsimp only; omega)

theorem line_foldl_next (p : Position) (cs : List Char) :
    (cs.foldl next p).line = p.line + cs.count '\n' := by
  induction cs generalizing p with
  | nil => rfl
  | cons c cs ih =>
    rw [List.foldl_cons, ih, next, List.count_cons]
    by_cases h : c = '\n'
    · simp only [h, if_true, beq_self_eq_true]
      omega
    · simp [h]

/-- Behind a line feed the columns start anew. -/
theorem after_append_newline (s t : List Char) :
    after (s ++ '\n' :: t) = (after t).below (s.count '\n' + 1) := by
  have hfeed : next (after s) '\n' = Position.start.below (s.count '\n' + 1) := by
    rw [next, if_pos rfl, after, line_foldl_next, below, Position.start]
    rw [Nat.add_assoc]
  rw [after, List.foldl_append, List.foldl_cons, ← after, hfeed, foldl_next_below, ← after]

theorem charAt?_below (s t : List Char) (hp : p.line ≠ 0) :
    charAt? (s ++ '\n' :: t) (p.below (s.count '\n' + 1)) = charAt? t p := by
  obtain ⟨line, column⟩ := p
  cases line with
  | zero => exact absurd rfl hp
  | succ line =>
    cases column with
    | zero => rfl
    | succ column =>
      have hline : line + 1 + (s.count '\n' + 1) = line + (pieces s).length + 1 := by
        rw [length_pieces]
        omega
      rw [below]
      dsimp only
      rw [hline, charAt?, charAt?, pieces_append_newline,
        List.getElem?_append_right (Nat.le_add_left _ _), Nat.add_sub_cancel]

theorem line_after_ne_zero (before : List Char) : (after before).line ≠ 0 := by
  rw [after, line_foldl_next]
  exact Nat.ne_of_gt (Nat.add_pos_left Nat.one_pos _)

/-- At the place of a character stands this character. -/
theorem charAt?_after {c : Char} (hc : c ≠ '\n') (before rest : List Char) :
    charAt? (before ++ c :: rest) (after before) = some c := by
  induction before using line_induction with
  | last line hline =>
    have hpiece : (pieces (line ++ c :: rest))[0]? =
        some (line ++ c :: rest.takeWhile (· != '\n')) := by
      rw [getElem?_zero_pieces, List.takeWhile_append_of_pos (ne_newline_of_not_mem hline),
        List.takeWhile_cons, if_pos (bne_iff_ne.mpr hc)]
    have hplace : after line = ⟨0 + 1, line.length + 1⟩ := by
      rw [after, foldl_next_of_not_mem hline, Position.start, Nat.add_comm 1]
    rw [hplace, charAt?, hpiece, Option.bind_some, List.getElem?_append_right (Nat.le_refl _),
      Nat.sub_self]
    rfl
  | more line before hline ih =>
    rw [List.append_assoc, List.cons_append, after_append_newline,
      charAt?_below _ _ (line_after_ne_zero before), ih]

theorem Precedes.trans (h : p.Precedes q) (h' : q.Precedes r) : p.Precedes r := by
  rcases h with h | ⟨hline, h⟩
  · rcases h' with h' | ⟨hline', -⟩
    · exact .inl (Nat.lt_trans h h')
    · exact .inl (hline' ▸ h)
  · rcases h' with h' | ⟨hline', h'⟩
    · exact .inl (hline ▸ h')
    · exact .inr ⟨hline.trans hline', Nat.lt_trans h h'⟩

theorem precedes_next (p : Position) (c : Char) : p.Precedes (next p c) := by
  unfold next Precedes
  split
  · exact .inl (Nat.lt_succ_self _)
  · exact .inr ⟨rfl, Nat.lt_succ_self _⟩

theorem precedes_foldl_next {cs : List Char} (h : cs ≠ []) (p : Position) :
    p.Precedes (cs.foldl next p) := by
  induction cs generalizing p with
  | nil => exact absurd rfl h
  | cons c cs ih =>
    by_cases hcs : cs = []
    · subst hcs
      exact precedes_next p c
    · exact (precedes_next p c).trans (ih hcs _)

/-- Of two cuts of a text the later one has the later place. -/
theorem precedes_of_byteLength_lt {a b p q : List Char} (h : a ++ p = b ++ q)
    (hlt : byteLength a < byteLength b) : (after a).Precedes (after b) := by
  rcases List.append_eq_append_iff.mp h with ⟨more, rfl, -⟩ | ⟨more, rfl, -⟩
  · have hmore : more ≠ [] := by
      rintro rfl
      rw [List.append_nil] at hlt
      exact Nat.lt_irrefl _ hlt
    rw [after, after, List.foldl_append]
    exact precedes_foldl_next hmore _
  · rw [byteLength_append] at hlt
    omega

end HelpAudit.Position

namespace HelpAudit.Markup.Span

open Text

def position (text : String) (a : Span) : Position := .ofOffset text a.offset

variable {delimiter : Char} {text : String} {a b : Span}

/-- The place of a span is the one behind the text before it. -/
theorem position_of_opens (h : a.Opens delimiter text) : ∃ before rest,
    text.toList = before ++ delimiter :: rest ∧ a.offset = byteLength before ∧
      a.position text = .after before := by
  obtain ⟨before, rest, htext, hoffset⟩ := h
  refine ⟨before, rest, htext, hoffset, ?_⟩
  rw [position, hoffset, Position.ofOffset_byteLength htext]

/-- At the place of a span stands its delimiter. -/
theorem charAt?_position (h : a.Opens delimiter text) (hd : delimiter ≠ '\n') :
    Position.charAt? text.toList (a.position text) = some delimiter := by
  obtain ⟨before, rest, htext, -, hplace⟩ := position_of_opens h
  rw [htext, hplace]
  exact Position.charAt?_after hd before rest

theorem precedes_position (ha : a.Opens delimiter text) (hb : b.Opens delimiter text)
    (hlt : a.offset < b.offset) : (a.position text).Precedes (b.position text) := by
  obtain ⟨before, rest, htext, hoffset, hplace⟩ := position_of_opens ha
  obtain ⟨before', rest', htext', hoffset', hplace'⟩ := position_of_opens hb
  rw [hoffset, hoffset'] at hlt
  rw [hplace, hplace']
  exact Position.precedes_of_byteLength_lt (htext.symm.trans htext') hlt

end HelpAudit.Markup.Span
