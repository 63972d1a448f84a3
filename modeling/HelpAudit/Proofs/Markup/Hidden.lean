import HelpAudit.Proofs.Markup.Candidate

/-!
Bars between stars. Links and anchors are searched for apart, and a link's match with a star on
either side is left to the anchors. They report it, unless its body holds a star or the star before
it stands inside a match of theirs that opens earlier: then neither search reports it.
-/
namespace HelpAudit.Markup

open Text

/-- The anchors of the text have a hidden one around the bars, with the same body. -/
def Candidate.IsHidden (text : String) (c : Candidate (List Char)) : Prop :=
  ∃ a ∈ anchors text, a.offset + 1 = c.offset ∧ a.body = .ofList c.value

/-- There are stars on both sides which are not those of a hidden anchor. -/
def Candidate.IsLost (text : String) (c : Candidate (List Char)) : Prop :=
  c.before = some '*' ∧ c.after = some '*' ∧
    ('*' ∈ c.value ∨ ∃ a ∈ candidates anchorShape text, a.Covers (c.offset - 1))

variable {text : String} {c : Candidate (List Char)}

/-- A link's match is reported unless there are stars on both sides. -/
theorem span_mem_links_iff (hc : c ∈ candidates linkShape text) :
    c.span ∈ links text ↔ ¬ (c.before = some '*' ∧ c.after = some '*') := by
  have hlink : c.isLink = true ↔ ¬ (c.before = some '*' ∧ c.after = some '*') := by
    simp [Candidate.isLink, imp_iff_not_or]
  rw [← hlink]
  constructor
  · intro hmem
    obtain ⟨d, hd, hspan⟩ := List.mem_map.mp hmem
    obtain ⟨hd, hdlink⟩ := List.mem_filter.mp hd
    rw [candidates_eq] at hc hd
    obtain rfl := eq_of_offset_eq isExact_linkShape hd hc (congrArg Span.offset hspan)
    exact hdlink
  · intro h
    exact List.mem_map.mpr ⟨c, List.mem_filter.mpr ⟨hc, h⟩, rfl⟩

/-- A body without bars ends where the first bar stands. -/
theorem body_inj {a b p q : List Char} (ha : '|' ∉ a) (hb : '|' ∉ b)
    (h : a ++ '|' :: p = b ++ '|' :: q) : a = b ∧ p = q := by
  have htake {r s : List Char} (hr : '|' ∉ r) : (r ++ '|' :: s).takeWhile (· != '|') = r := by
    refine (takeWhile_append_of_head? (fun c hc => ?_) fun c hc => ?_).1
    · exact bne_iff_ne.mpr fun heq => hr (heq ▸ hc)
    · cases hc
      rfl
  obtain rfl : a = b := by rw [← htake ha, h, htake hb]
  exact ⟨rfl, (List.cons.inj (List.append_cancel_left h)).2⟩

/-- Around a hidden anchor's bars stand its stars. -/
theorem stars_of_isHidden (hc : c ∈ candidates linkShape text) (h : c.IsHidden text) :
    c.before = some '*' ∧ c.after = some '*' ∧ '*' ∉ c.value := by
  obtain ⟨before, rest, htext, hoffset, hbefore, hafter, -, hvalue⟩ := exists_bars hc
  obtain ⟨a, ha, hnext, hbody⟩ := h
  obtain ⟨before', hidden, body, rest', htext', rfl, hne, hanchor⟩ := exists_stars ha
  have hlength : byteLength (before' ++ ['*']) = byteLength before := by
    rw [byteLength_append, ← hoffset, ← hnext]
    rfl
  have hjoin : (before' ++ ['*']) ++ (bar hidden ++ body ++ bar hidden ++ '*' :: rest') =
      before ++ '|' :: (c.value ++ '|' :: rest) := by
    rw [← List.append_cons, ← htext', htext]
  obtain ⟨rfl, hbars⟩ := append_inj_of_byteLength hjoin hlength
  obtain rfl : body = c.value := String.ofList_injective hbody
  have hstar : '*' ∉ c.value := fun hm => (isAnchorBody_iff.mp (hanchor _ hm)).1 rfl
  have hbar : '|' ∉ c.value := fun hm => (isAnchorBody_iff.mp (hanchor _ hm)).2.1 rfl
  refine ⟨by rw [hbefore, List.getLast?_concat], ?_, hstar⟩
  cases hidden with
  | false =>
    -- The anchor would start with its body, which holds no bar.
    obtain ⟨d, ds, hd⟩ := List.exists_cons_of_ne_nil hne
    rw [hd] at hbars hbar
    simp only [bar_false, List.nil_append, List.append_nil, List.cons_append] at hbars
    exact absurd ((List.cons.inj hbars).1 ▸ List.mem_cons_self) hbar
  | true =>
    have hrest : c.value ++ '|' :: '*' :: rest' = c.value ++ '|' :: rest := by simpa using hbars
    have hstars := (body_inj hbar hbar hrest).2
    rw [hafter, ← hstars]
    rfl

/-- Stars around a body without stars are a hidden anchor, unless the first belongs to a match. -/
theorem isHidden_of_stars (hc : c ∈ candidates linkShape text) (hb : c.before = some '*')
    (ha : c.after = some '*') (hstar : '*' ∉ c.value)
    (hfree : ¬ ∃ a ∈ candidates anchorShape text, a.Covers (c.offset - 1)) : c.IsHidden text := by
  obtain ⟨before, rest, htext, hoffset, hbefore, hafter, hne, hvalue⟩ := exists_bars hc
  rw [hb] at hbefore
  rw [ha] at hafter
  obtain ⟨before, rfl⟩ := List.getLast?_eq_some_iff.mp hbefore.symm
  obtain ⟨rest, rfl⟩ := List.head?_eq_some_iff.mp hafter.symm
  have hbody : ∀ d ∈ c.value, isAnchorBody d = true := by
    intro d hd
    have hlink := isLinkBody_iff.mp (hvalue d hd)
    exact isAnchorBody_iff.mpr ⟨fun heq => hstar (heq ▸ hd), hlink⟩
  let parts : AnchorParts := ⟨true, c.value, true⟩
  let m : Match AnchorParts := ⟨parts, byteLength ('*' :: parts.written ++ ['*']), rest⟩
  have hm : anchorShape.match? ('*' :: '|' :: (c.value ++ '|' :: '*' :: rest)) = some m := by
    rw [match?_anchorShape]
    exact anchorMatch?_eq_some_iff.mpr
      ⟨hne, hbody, by simp [m, parts, AnchorParts.written], rfl⟩
  rw [← List.append_cons] at htext
  have hplace : byteLength before = c.offset - 1 := by
    rw [hoffset, byteLength_append]
    rfl
  have hmem : m.at before ∈ candidates anchorShape text :=
    (at_mem_candidates_iff isExact_anchorShape htext hm).mpr (hplace ▸ hfree)
  refine ⟨⟨byteLength before, .ofList c.value⟩, List.mem_map.mpr ⟨m.at before, ?_, rfl⟩, ?_, rfl⟩
  · exact List.mem_filter.mpr ⟨hmem, rfl⟩
  · rw [hoffset, byteLength_append]
    rfl

/-- No anchor is reported from inside a match of an anchor. -/
theorem not_isHidden_of_covers {a : Candidate AnchorParts}
    (ha : a ∈ candidates anchorShape text) (hcovers : a.Covers (c.offset - 1)) :
    ¬ c.IsHidden text := by
  rintro ⟨s, hs, hnext, -⟩
  obtain ⟨b, hb, rfl⟩ := List.mem_map.mp hs
  apply not_isCovered_of_mem isExact_anchorShape (List.mem_filter.mp hb).1
  dsimp only at hnext
  rw [← hnext, Nat.add_sub_cancel] at hcovers
  exact ⟨a, ha, hcovers⟩

/-- A link's match is left out of the links just when it is a hidden anchor with the same body or
is lost, and it is never both. So what the anchors report is no link, and what neither search
reports is what is lost. -/
theorem span_not_mem_links_iff (text : String) {c : Candidate (List Char)}
    (hc : c ∈ candidates linkShape text) :
    (c.span ∉ links text ↔ c.IsHidden text ∨ c.IsLost text) ∧
      ¬ (c.IsHidden text ∧ c.IsLost text) := by
  rw [span_mem_links_iff hc, not_not]
  refine ⟨⟨fun ⟨hb, ha⟩ => ?_, ?_⟩, ?_⟩
  · by_cases hstar : '*' ∈ c.value
    · exact .inr ⟨hb, ha, .inl hstar⟩
    · by_cases hfree : ∃ a ∈ candidates anchorShape text, a.Covers (c.offset - 1)
      · exact .inr ⟨hb, ha, .inr hfree⟩
      · exact .inl (isHidden_of_stars hc hb ha hstar hfree)
  · rintro (hhidden | ⟨hb, ha, -⟩)
    · obtain ⟨hb, ha, -⟩ := stars_of_isHidden hc hhidden
      exact ⟨hb, ha⟩
    · exact ⟨hb, ha⟩
  · rintro ⟨hhidden, -, -, hstar | ⟨a, ha, hcovers⟩⟩
    · exact (stars_of_isHidden hc hhidden).2.2 hstar
    · exact not_isHidden_of_covers ha hcovers hhidden

deriving instance DecidableEq for Candidate

/-- The bars and the body `b` in a text that has a star on either side of them. -/
def starred (offset : Nat) : Candidate (List Char) := ⟨offset, some '*', some '*', ['b'], 3⟩

theorem starred_five_hidden : starred 5 ∈ candidates linkShape "|x| *|b|*" ∧
    (starred 5).IsHidden "|x| *|b|*" ∧ (starred 5).span ∉ links "|x| *|b|*" ∧
    ¬ (starred 5).IsLost "|x| *|b|*" := by
  have hc : starred 5 ∈ candidates linkShape "|x| *|b|*" := by decide +kernel
  have hhidden : (starred 5).IsHidden "|x| *|b|*" := by
    change ∃ a ∈ anchors _, _
    decide +kernel
  obtain ⟨homitted, hboth⟩ := span_not_mem_links_iff "|x| *|b|*" hc
  exact ⟨hc, hhidden, homitted.mpr (.inl hhidden), fun hlost => hboth ⟨hhidden, hlost⟩⟩

/-- The star before the bars is the end of another anchor, and neither search reports them. -/
theorem not_omitted_iff_hidden : ¬ ∀ text, ∀ c ∈ candidates linkShape text,
    (c.span ∉ links text ↔ c.IsHidden text) := by
  intro h
  have hc : starred 3 ∈ candidates linkShape "*a*|b|*" := by decide +kernel
  have homitted : (starred 3).span ∉ links "*a*|b|*" := by decide +kernel
  have hnot : ¬ (starred 3).IsHidden "*a*|b|*" := by
    change ¬ ∃ a ∈ anchors _, _
    decide +kernel
  exact hnot ((h _ _ hc).mp homitted)

end HelpAudit.Markup
