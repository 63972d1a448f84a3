import HelpAudit.Markup.Span
import HelpAudit.Proofs.Text

/-! What anchors and links look like: a match is its delimiters, its bars and its body. -/
namespace HelpAudit.Markup

open Text

/-- A bar, or nothing. -/
def bar (b : Bool) : List Char := if b then ['|'] else []

@[simp] theorem bar_true : bar true = ['|'] := rfl
@[simp] theorem bar_false : bar false = [] := rfl

/-- What an anchor's match is written with. -/
def AnchorParts.written (a : AnchorParts) : List Char := bar a.barBefore ++ a.body ++ bar a.barAfter

theorem isAnchorBody_iff {c : Char} : isAnchorBody c = true ↔ c ≠ '*' ∧ c ≠ '|' ∧ c ≠ '\n' := by
  simp [isAnchorBody, and_assoc]

theorem isLinkBody_iff {c : Char} : isLinkBody c = true ↔ c ≠ '|' ∧ c ≠ '\n' := by
  simp [isLinkBody]

theorem takeBar_append (cs : List Char) : bar (takeBar cs).1 ++ (takeBar cs).2 = cs := by
  unfold takeBar
  split <;> rfl

theorem takeBar_bar_append (b : Bool) {cs : List Char} (h : cs.head? ≠ some '|') :
    takeBar (bar b ++ cs) = (b, cs) := by
  cases b with
  | true => rfl
  | false =>
    rw [bar_false, List.nil_append]
    unfold takeBar
    split
    · simp at h
    · rfl

theorem byteLength_bar (b : Bool) : byteLength (bar b) = b.toNat := by cases b <;> rfl

/-- A link is a body between two bars. -/
theorem linkMatch?_eq_some_iff {cs : List Char} {m : Match (List Char)} :
    linkMatch? cs = some m ↔ m.value ≠ [] ∧ (∀ c ∈ m.value, isLinkBody c = true) ∧
      cs = '|' :: (m.value ++ '|' :: m.rest) ∧ m.length = byteLength ('|' :: m.value ++ ['|']) := by
  have hbar : '|'.utf8Size = 1 := rfl
  constructor
  · intro h
    unfold linkMatch? at h
    split at h
    · next cs =>
      dsimp only at h
      split at h
      · cases h
      · next hne =>
        split at h
        · next rest heq =>
          cases h
          refine ⟨by simpa using hne, List.all_eq_true.mp List.all_takeWhile, ?_, ?_⟩
          · rw [← heq, List.takeWhile_append_dropWhile]
          · simp only [List.cons_append, byteLength_cons, byteLength_append, byteLength_nil, hbar]
            omega
        · cases h
    · cases h
  · rintro ⟨hne, hb, rfl, hl⟩
    have hend : ∀ c, ('|' :: m.rest).head? = some c → isLinkBody c = false := by
      intro c hc
      cases hc
      rfl
    obtain ⟨htake, hdrop⟩ := takeWhile_append_of_head? hb hend
    have hempty : m.value.isEmpty = false := by simpa using hne
    have hlength : 2 + byteLength m.value = m.length := by
      rw [hl]
      simp only [List.cons_append, byteLength_cons, byteLength_append, byteLength_nil, hbar]
      omega
    simp [linkMatch?, htake, hdrop, hempty, hlength]

/-- An anchor is a body between stars, with a bar next to either star or to none. -/
theorem anchorMatch?_eq_some_iff {cs : List Char} {m : Match AnchorParts} :
    anchorMatch? cs = some m ↔ m.value.body ≠ [] ∧
      (∀ c ∈ m.value.body, isAnchorBody c = true) ∧
      cs = '*' :: (m.value.written ++ '*' :: m.rest) ∧
      m.length = byteLength ('*' :: m.value.written ++ ['*']) := by
  have hstar : '*'.utf8Size = 1 := rfl
  constructor
  · intro h
    unfold anchorMatch? at h
    split at h
    · next cs =>
      dsimp only at h
      split at h
      · cases h
      · next hne =>
        split at h
        · next rest heq =>
          cases h
          refine ⟨by simpa using hne, List.all_eq_true.mp List.all_takeWhile, ?_, ?_⟩
          · have hclosed := takeBar_append ((takeBar cs).2.dropWhile isAnchorBody)
            rw [heq] at hclosed
            rw [AnchorParts.written, List.append_assoc, List.append_assoc, hclosed,
              List.takeWhile_append_dropWhile, takeBar_append]
          · simp only [AnchorParts.written, List.cons_append, byteLength_cons, byteLength_append,
              byteLength_nil, byteLength_bar, hstar]
            omega
        · cases h
    · cases h
  · rintro ⟨hne, hb, rfl, hl⟩
    obtain ⟨⟨before, body, after⟩, length, rest⟩ := m
    dsimp only at hne hb hl
    obtain ⟨first, others, rfl⟩ := List.exists_cons_of_ne_nil hne
    have hopened : takeBar (AnchorParts.written ⟨before, first :: others, after⟩ ++ '*' :: rest) =
        (before, first :: others ++ (bar after ++ '*' :: rest)) := by
      have hfirst := (isAnchorBody_iff.mp (hb first List.mem_cons_self)).2.1
      rw [AnchorParts.written, List.append_assoc, List.append_assoc]
      exact takeBar_bar_append before (by simpa using hfirst)
    have hclosed : takeBar (bar after ++ '*' :: rest) = (after, '*' :: rest) :=
      takeBar_bar_append after (by simp)
    have hend : ∀ c, (bar after ++ '*' :: rest).head? = some c → isAnchorBody c = false := by
      intro c hc
      cases after <;> (cases hc; rfl)
    obtain ⟨htake, hdrop⟩ := takeWhile_append_of_head? hb hend
    have hlength : 2 + before.toNat + byteLength (first :: others) + after.toNat = length := by
      rw [hl]
      simp only [AnchorParts.written, List.cons_append, byteLength_cons, byteLength_append,
        byteLength_nil, byteLength_bar, hstar]
      omega
    simp only [anchorMatch?, hopened, htake, hdrop, hclosed, List.isEmpty_cons, hlength]
    rfl

end HelpAudit.Markup
