import HelpAudit.Proofs.Markup.Shape
import Mathlib.Data.List.Pairwise

/-!
The search for candidates. Each is a match in its place, each ends before the next one starts, and
a place in the text is either inside a candidate or one from which the search goes on.
-/
namespace HelpAudit.Markup

open Text

variable {α : Type} {shape : Shape α} {before cs rest : List Char} {c : Candidate α} {m : Match α}

/-- A match takes its delimiters and what is between them, and is as long as these. -/
def Shape.IsExact (shape : Shape α) : Prop :=
  ∀ {cs m}, shape.match? cs = some m → ∃ inner,
    cs = (shape.delimiter :: inner ++ [shape.delimiter]) ++ m.rest ∧
    m.length = byteLength (shape.delimiter :: inner ++ [shape.delimiter])

theorem match?_linkShape (cs : List Char) : linkShape.match? cs = linkMatch? cs := rfl

theorem isExact_linkShape : linkShape.IsExact := by
  intro cs m h
  obtain ⟨-, -, hcs, hlength⟩ := linkMatch?_eq_some_iff.mp h
  exact ⟨m.value, by simpa [linkShape] using hcs, hlength⟩

theorem match?_anchorShape (cs : List Char) : anchorShape.match? cs = anchorMatch? cs := rfl

theorem isExact_anchorShape : anchorShape.IsExact := by
  intro cs m h
  obtain ⟨-, -, hcs, hlength⟩ := anchorMatch?_eq_some_iff.mp h
  exact ⟨m.value.written, by simpa [anchorShape] using hcs, hlength⟩

/-- The candidate that a match is after the text `before`. -/
def Match.at (m : Match α) (before : List Char) : Candidate α :=
  ⟨byteLength before, before.getLast?, m.rest.head?, m.value, m.length⟩

/-- The candidate is a match of the shape in its place in the text. -/
def Candidate.Stands (shape : Shape α) (text : List Char) (c : Candidate α) : Prop :=
  ∃ before rest m, text = before ++ rest ∧ shape.match? rest = some m ∧ c = m.at before

/-- The candidates in the rest of a text after the part `before`. -/
def candidatesAfter (shape : Shape α) (before rest : List Char) : List (Candidate α) :=
  candidatesFrom shape (byteLength before) before.getLast? rest

@[simp] theorem candidatesAfter_nil : candidatesAfter shape before [] = [] := by
  rw [candidatesAfter, candidatesFrom]

theorem candidates_eq (shape : Shape α) (text : String) :
    candidates shape text = candidatesAfter shape [] text.toList := rfl

theorem candidatesAfter_of_none {d : Char} (h : shape.match? (d :: cs) = none) :
    candidatesAfter shape before (d :: cs) = candidatesAfter shape (before ++ [d]) cs := by
  rw [candidatesAfter, candidatesFrom]
  split
  · next m hm => simp [h] at hm
  · simp [candidatesAfter]

theorem candidatesAfter_of_some (hs : shape.IsExact) (before : List Char)
    (h : shape.match? cs = some m) : ∃ taken, cs = taken ++ m.rest ∧ taken ≠ [] ∧
      byteLength taken = m.length ∧ candidatesAfter shape before cs =
        m.at before :: candidatesAfter shape (before ++ taken) m.rest := by
  obtain ⟨inner, hcs, hlength⟩ := hs h
  refine ⟨_, hcs, by simp, hlength.symm, ?_⟩
  have hlast : (before ++ (shape.delimiter :: inner ++ [shape.delimiter])).getLast? =
      some shape.delimiter := by rw [← List.append_assoc, List.getLast?_concat]
  unfold candidatesAfter
  rw [byteLength_append, hlast, ← hlength]
  cases cs with
  | nil => simp at hcs
  | cons d cs =>
    rw [candidatesFrom]
    split
    · next m' hm =>
      rw [h] at hm
      cases hm
      rfl
    · next hm => simp [h] at hm

/-- What the search takes for a match of which the extent is known. -/
theorem candidatesAfter_append (hs : shape.IsExact) (before : List Char) {taken : List Char}
    (h : shape.match? (taken ++ m.rest) = some m) :
    candidatesAfter shape before (taken ++ m.rest) =
      m.at before :: candidatesAfter shape (before ++ taken) m.rest := by
  obtain ⟨taken', heq, -, -, hcandidates⟩ := candidatesAfter_of_some hs before h
  rw [hcandidates, List.append_cancel_right heq]

/-- Nothing matches before the first delimiter. -/
theorem candidatesAfter_skip (hs : shape.IsExact) (before : List Char) {skipped : List Char}
    (h : shape.delimiter ∉ skipped) : candidatesAfter shape before (skipped ++ rest) =
      candidatesAfter shape (before ++ skipped) rest := by
  induction skipped generalizing before with
  | nil => simp
  | cons d skipped ih =>
    obtain ⟨hd, hskipped⟩ := not_or.mp (mt List.mem_cons.mpr h)
    have hnone : shape.match? (d :: (skipped ++ rest)) = none := by
      cases hm : shape.match? (d :: (skipped ++ rest)) with
      | none => rfl
      | some m =>
        obtain ⟨inner, hcs, -⟩ := hs hm
        exact absurd (List.cons.inj hcs).1.symm hd
    rw [List.cons_append, candidatesAfter_of_none hnone, ih _ hskipped, ← List.append_cons]

/-- The search goes on after a match, and else one character on. -/
@[elab_as_elim]
theorem search_induction (hs : shape.IsExact) {motive : List Char → List Char → Prop}
    (nil : ∀ before, motive before [])
    (skip : ∀ before d cs, shape.match? (d :: cs) = none →
      motive (before ++ [d]) cs → motive before (d :: cs))
    (found : ∀ before taken m, shape.match? (taken ++ m.rest) = some m → taken ≠ [] →
      byteLength taken = m.length →
      candidatesAfter shape before (taken ++ m.rest) =
        m.at before :: candidatesAfter shape (before ++ taken) m.rest →
      motive (before ++ taken) m.rest → motive before (taken ++ m.rest))
    (before cs : List Char) : motive before cs := by
  match cs with
  | [] => exact nil before
  | d :: rest =>
    match hm : shape.match? (d :: rest) with
    | none => exact skip before d rest hm (search_induction hs nil skip found _ rest)
    | some m =>
      obtain ⟨taken, heq, hne, hlength, hcandidates⟩ := candidatesAfter_of_some hs before hm
      have hshorter := shape.shorter hm
      rw [heq] at hm hcandidates ⊢
      exact found before taken m hm hne hlength hcandidates
        (search_induction hs nil skip found _ m.rest)
  termination_by cs.length
  decreasing_by
    · simp
    · exact hshorter

theorem stands_of_mem (hs : shape.IsExact) (hc : c ∈ candidatesAfter shape before cs) :
    c.Stands shape (before ++ cs) ∧ byteLength before ≤ c.offset := by
  induction before, cs using search_induction hs with
  | nil before => simp at hc
  | skip before d cs hm ih =>
    rw [candidatesAfter_of_none hm] at hc
    obtain ⟨hstands, hle⟩ := ih hc
    rw [byteLength_append] at hle
    exact ⟨by simpa using hstands, by omega⟩
  | found before taken m hm hne hlength hcandidates ih =>
    rw [hcandidates] at hc
    rcases List.mem_cons.mp hc with rfl | hc
    · exact ⟨⟨before, taken ++ m.rest, m, rfl, hm, rfl⟩, Nat.le_refl _⟩
    · obtain ⟨hstands, hle⟩ := ih hc
      rw [byteLength_append] at hle
      exact ⟨by simpa using hstands, by omega⟩

theorem stands_of_mem_candidates (hs : shape.IsExact) {text : String}
    (hc : c ∈ candidates shape text) : c.Stands shape text.toList := by
  rw [candidates_eq] at hc
  exact (stands_of_mem hs hc).1

/-- Each candidate ends before the next one starts. -/
theorem pairwise_candidatesAfter (hs : shape.IsExact) (before cs : List Char) :
    (candidatesAfter shape before cs).Pairwise fun a b => a.offset + a.length ≤ b.offset := by
  induction before, cs using search_induction hs with
  | nil before => simp
  | skip before d cs hm ih => rwa [candidatesAfter_of_none hm]
  | found before taken m hm hne hlength hcandidates ih =>
    rw [hcandidates]
    refine List.pairwise_cons.mpr ⟨fun c hc => ?_, ih⟩
    have hle := (stands_of_mem hs hc).2
    rw [byteLength_append, hlength] at hle
    exact hle

theorem length_pos_of_mem (hs : shape.IsExact) (hc : c ∈ candidatesAfter shape before cs) :
    0 < c.length := by
  obtain ⟨⟨pre, rest, m, -, hm, rfl⟩, -⟩ := stands_of_mem hs hc
  obtain ⟨inner, -, hlength⟩ := hs hm
  rw [Match.at, hlength, List.cons_append, byteLength_cons]
  exact Nat.add_pos_left shape.delimiter.utf8Size_pos _

/-- Candidates come in the order of their offsets. -/
theorem pairwise_offset_candidates (hs : shape.IsExact) (text : String) :
    (candidates shape text).Pairwise fun a b => a.offset < b.offset := by
  rw [candidates_eq]
  refine (pairwise_candidatesAfter hs _ _).imp_of_mem fun {a b} ha _ hle => ?_
  have hpos := length_pos_of_mem hs ha
  omega

/-- Of two candidates one ends before the other starts. -/
theorem apart_of_mem (hs : shape.IsExact) {a b : Candidate α}
    (ha : a ∈ candidatesAfter shape before cs) (hb : b ∈ candidatesAfter shape before cs) :
    a = b ∨ a.offset + a.length ≤ b.offset ∨ b.offset + b.length ≤ a.offset := by
  let Apart (x y : Candidate α) : Prop :=
    x = y ∨ x.offset + x.length ≤ y.offset ∨ y.offset + y.length ≤ x.offset
  have hsymm : Std.Symm Apart := ⟨by
    rintro x y (rfl | h | h)
    · exact .inl rfl
    · exact .inr (.inr h)
    · exact .inr (.inl h)⟩
  have hpair : (candidatesAfter shape before cs).Pairwise Apart :=
    (pairwise_candidatesAfter hs before cs).imp fun h => .inr (.inl h)
  exact hpair.forall_of_forall (fun _ _ => .inl rfl) ha hb

theorem eq_of_offset_eq (hs : shape.IsExact) {a b : Candidate α}
    (ha : a ∈ candidatesAfter shape before cs) (hb : b ∈ candidatesAfter shape before cs)
    (h : a.offset = b.offset) : a = b := by
  have h₁ := length_pos_of_mem hs ha
  have h₂ := length_pos_of_mem hs hb
  rcases apart_of_mem hs ha hb with heq | hab | hba
  · exact heq
  · omega
  · omega

/-- A candidate reaches across a place of the text. -/
def Candidate.Covers (c : Candidate α) (place : Nat) : Prop :=
  c.offset < place ∧ place < c.offset + c.length

/-- A place is inside a candidate, or the search goes on from there. -/
theorem covers_or_suffix (hs : shape.IsExact) (before cs rest : List Char) :
    (∃ c ∈ candidatesAfter shape before (cs ++ rest), c.Covers (byteLength (before ++ cs))) ∨
      candidatesAfter shape (before ++ cs) rest <:+ candidatesAfter shape before (cs ++ rest) := by
  generalize htext : cs ++ rest = text
  induction before, text using search_induction hs generalizing cs with
  | nil before =>
    obtain ⟨rfl, rfl⟩ := List.append_eq_nil_iff.mp htext
    simp
  | skip before d text hm ih =>
    cases cs with
    | nil =>
      right
      simp only [List.append_nil, ← htext, List.nil_append, List.suffix_refl]
    | cons e cs =>
      obtain ⟨rfl, hrest⟩ := List.cons.inj htext
      rw [candidatesAfter_of_none hm, List.append_cons before e cs]
      exact ih cs hrest
  | found before taken m hm hne hlength hcandidates ih =>
    rw [hcandidates]
    rcases List.append_eq_append_iff.mp htext with ⟨inner, rfl, hrest⟩ | ⟨more, rfl, hmore⟩
    · by_cases hcs : cs = []
      · subst hcs
        right
        rw [← hcandidates]
        simp only [List.append_nil, List.nil_append, hrest, List.suffix_refl]
      by_cases hinner : inner = []
      · subst hinner
        right
        rw [hrest, List.append_nil, List.nil_append]
        exact List.suffix_cons _ _
      left
      refine ⟨m.at before, List.mem_cons_self, ?_⟩
      have h₁ := byteLength_pos hcs
      have h₂ := byteLength_pos hinner
      rw [byteLength_append] at hlength
      rw [Candidate.Covers, Match.at, byteLength_append]
      dsimp only
      omega
    · rw [← List.append_assoc]
      rcases ih more hmore.symm with ⟨c, hc, hcovers⟩ | hsuffix
      · exact .inl ⟨c, List.mem_cons_of_mem _ hc, hcovers⟩
      · exact .inr (hsuffix.trans (List.suffix_cons _ _))

/-- A candidate that starts before the place reaches across it. -/
def IsCovered (shape : Shape α) (text : String) (place : Nat) : Prop :=
  ∃ c ∈ candidates shape text, c.Covers place

/-- A place that is the start of a candidate is not inside another. -/
theorem not_isCovered_of_mem (hs : shape.IsExact) {text : String}
    (hc : c ∈ candidates shape text) : ¬ IsCovered shape text c.offset := by
  rintro ⟨a, ha, hstart, hend⟩
  rw [candidates_eq] at ha hc
  have hpos := length_pos_of_mem hs hc
  rcases apart_of_mem hs ha hc with rfl | hab | hba
  · omega
  · omega
  · omega

/-- A match in the text is a candidate unless an earlier candidate reaches across its start. -/
theorem at_mem_candidates_iff (hs : shape.IsExact) {text : String}
    (htext : text.toList = before ++ rest) (hm : shape.match? rest = some m) :
    m.at before ∈ candidates shape text ↔ ¬ IsCovered shape text (byteLength before) := by
  refine ⟨fun hc => not_isCovered_of_mem hs hc, fun hfree => ?_⟩
  obtain ⟨taken, -, -, -, hcandidates⟩ := candidatesAfter_of_some hs before hm
  unfold IsCovered at hfree
  rw [candidates_eq, htext] at hfree ⊢
  rcases covers_or_suffix hs [] before rest with hcovers | hsuffix
  · exact absurd hcovers hfree
  · apply hsuffix.subset
    rw [List.nil_append, hcandidates]
    exact List.mem_cons_self

/-- The candidate that starts at a match is that match. -/
theorem eq_at_of_offset_eq (hs : shape.IsExact) {text : String}
    (hc : c ∈ candidates shape text) (htext : text.toList = before ++ rest)
    (hm : shape.match? rest = some m) (hoffset : c.offset = byteLength before) :
    c = m.at before := by
  obtain ⟨before', rest', m', htext', hm', rfl⟩ := stands_of_mem_candidates hs hc
  obtain ⟨rfl, rfl⟩ := append_inj_of_byteLength (htext'.symm.trans htext) hoffset
  rw [hm'] at hm
  exact congrArg (Match.at · before') (Option.some.inj hm)

/-- What is reported of a link's match that is a link. -/
def Candidate.span (c : Candidate (List Char)) : Span := ⟨c.offset, .ofList c.value⟩

/-- A link's match in its place. -/
theorem exists_bars {text : String} {c : Candidate (List Char)}
    (hc : c ∈ candidates linkShape text) :
    ∃ before rest, text.toList = before ++ '|' :: (c.value ++ '|' :: rest) ∧
      c.offset = byteLength before ∧ c.before = before.getLast? ∧ c.after = rest.head? ∧
      c.value ≠ [] ∧ ∀ d ∈ c.value, isLinkBody d = true := by
  obtain ⟨before, rest, m, htext, hm, rfl⟩ := stands_of_mem_candidates isExact_linkShape hc
  obtain ⟨hne, hbody, rfl, -⟩ := linkMatch?_eq_some_iff.mp hm
  exact ⟨before, m.rest, htext, rfl, rfl, rfl, hne, hbody⟩

/-- An anchor that is reported in its place, with two bars or none. -/
theorem exists_stars {text : String} {a : Span} (ha : a ∈ anchors text) :
    ∃ before hidden body rest, text.toList =
        before ++ '*' :: (bar hidden ++ body ++ bar hidden ++ '*' :: rest) ∧
      a = ⟨byteLength before, .ofList body⟩ ∧ body ≠ [] ∧ ∀ d ∈ body, isAnchorBody d = true := by
  obtain ⟨c, hc, rfl⟩ := List.mem_map.mp ha
  obtain ⟨hc, hbalanced⟩ := List.mem_filter.mp hc
  obtain ⟨before, rest, m, htext, hm, rfl⟩ := stands_of_mem_candidates isExact_anchorShape hc
  obtain ⟨hne, hbody, rfl, -⟩ := anchorMatch?_eq_some_iff.mp hm
  refine ⟨before, m.value.barBefore, m.value.body, m.rest, ?_, rfl, hne, hbody⟩
  have hbars : m.value.barBefore = m.value.barAfter := beq_iff_eq.mp hbalanced
  rw [htext, AnchorParts.written, hbars]

/-- The span starts with the delimiter at its offset. -/
def Span.Opens (delimiter : Char) (text : String) (a : Span) : Prop :=
  ∃ before rest, text.toList = before ++ delimiter :: rest ∧ a.offset = byteLength before

theorem opens_of_mem_anchors {text : String} {a : Span} (ha : a ∈ anchors text) :
    a.Opens '*' text := by
  obtain ⟨before, hidden, body, rest, htext, rfl, -, -⟩ := exists_stars ha
  exact ⟨before, _, htext, rfl⟩

theorem opens_of_mem_links {text : String} {a : Span} (ha : a ∈ links text) :
    a.Opens '|' text := by
  obtain ⟨c, hc, rfl⟩ := List.mem_map.mp ha
  obtain ⟨before, rest, htext, hoffset, -⟩ := exists_bars (List.mem_filter.mp hc).1
  exact ⟨before, _, htext, hoffset⟩

theorem pairwise_offset_anchors (text : String) :
    (anchors text).Pairwise fun a b => a.offset < b.offset :=
  List.pairwise_map.mpr ((pairwise_offset_candidates isExact_anchorShape text).filter _)

theorem pairwise_offset_links (text : String) :
    (links text).Pairwise fun a b => a.offset < b.offset :=
  List.pairwise_map.mpr ((pairwise_offset_candidates isExact_linkShape text).filter _)

theorem newline_not_mem_anchor {text : String} {a : Span} (ha : a ∈ anchors text) :
    '\n' ∉ a.body.toList := by
  obtain ⟨before, hidden, body, rest, -, rfl, -, hbody⟩ := exists_stars ha
  rw [String.toList_ofList]
  exact fun hm => (isAnchorBody_iff.mp (hbody _ hm)).2.2 rfl

theorem newline_not_mem_link {text : String} {a : Span} (ha : a ∈ links text) :
    '\n' ∉ a.body.toList := by
  obtain ⟨c, hc, rfl⟩ := List.mem_map.mp ha
  obtain ⟨before, rest, -, -, -, -, -, hbody⟩ := exists_bars (List.mem_filter.mp hc).1
  rw [String.toList_ofList]
  exact fun hm => (isLinkBody_iff.mp (hbody _ hm)).2 rfl

end HelpAudit.Markup
