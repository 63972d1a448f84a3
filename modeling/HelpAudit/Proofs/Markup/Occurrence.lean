import HelpAudit.Proofs.Markup.Line

/-!
Markup that a text holds and markup that is found in it. A search reports pieces that do not
overlap, each as it is written. A piece that it does not report starts inside an earlier candidate
of the search, which may itself go unreported, or is a link's with stars on both sides.
-/
namespace HelpAudit.Markup

open Text

def plainAnchor (body : List Char) : List Char := '*' :: body ++ ['*']
def hiddenAnchor (body : List Char) : List Char := '*' :: '|' :: body ++ ['|', '*']
def barred (body : List Char) : List Char := '|' :: body ++ ['|']
def betweenStars (w : List Char) : List Char := '*' :: w ++ ['*']

/-- What can stand inside markup: some characters, all of them allowed. -/
def IsBody (allowed : Char → Bool) (body : List Char) : Prop :=
  body ≠ [] ∧ ∀ c ∈ body, allowed c = true

/-- What a search reports of a text. The pieces of markup that it looks for are bodies written in
one of the `forms`; those that are `missed` at their offset are not reported. -/
structure FindsWritten (text : String) (spans : List Span) (allowed : Char → Bool)
    (forms : List (List Char → List Char)) (missed : Nat → List Char → Prop) : Prop where
  ascending : spans.Pairwise fun a b => a.offset < b.offset
  disjoint : spans.Pairwise fun a b => ∀ form ∈ forms,
    ReadsAt text a.offset (form a.body.toList) →
      a.offset + byteLength (form a.body.toList) ≤ b.offset
  written : ∀ a ∈ spans, IsBody allowed a.body.toList ∧
    ∃ form ∈ forms, ReadsAt text a.offset (form a.body.toList)
  left_out : ∀ form ∈ forms, ∀ body offset, IsBody allowed body →
    ReadsAt text offset (form body) →
      ((⟨offset, .ofList body⟩ : Span) ∉ spans ↔ missed offset (form body))

variable {α : Type} {shape : Shape α} {v : α} {w body : List Char} {text : String}
  {before rest : List Char} {c : Candidate α}

/-- The shape takes the value `v` from the text `w`, whatever follows. -/
def Shape.Takes (shape : Shape α) (w : List Char) (v : α) : Prop :=
  ∀ rest, shape.match? (w ++ rest) = some ⟨v, byteLength w, rest⟩

theorem takes_anchor (hidden : Bool) (h : IsBody isAnchorBody body) :
    anchorShape.Takes ('*' :: (bar hidden ++ body ++ bar hidden) ++ ['*'])
      ⟨hidden, body, hidden⟩ := by
  intro rest
  rw [match?_anchorShape]
  exact anchorMatch?_eq_some_iff.mpr ⟨h.1, h.2, by simp [AnchorParts.written], rfl⟩

theorem takes_plainAnchor (h : IsBody isAnchorBody body) :
    anchorShape.Takes (plainAnchor body) ⟨false, body, false⟩ := by
  simpa [plainAnchor] using takes_anchor false h

theorem takes_hiddenAnchor (h : IsBody isAnchorBody body) :
    anchorShape.Takes (hiddenAnchor body) ⟨true, body, true⟩ := by
  simpa [hiddenAnchor] using takes_anchor true h

theorem takes_barred (h : IsBody isLinkBody body) : linkShape.Takes (barred body) body := by
  intro rest
  rw [match?_linkShape]
  exact linkMatch?_eq_some_iff.mpr ⟨h.1, h.2, by simp [barred], rfl⟩

/-- A candidate is as long as what the text reads there. -/
theorem length_of_readsAt (hs : shape.IsExact) (hw : shape.Takes w v)
    (hc : c ∈ candidates shape text) (h : ReadsAt text c.offset w) : c.length = byteLength w := by
  obtain ⟨before, rest, htext, hoffset⟩ := h
  rw [List.append_assoc] at htext
  rw [eq_at_of_offset_eq hs hc htext (hw rest) hoffset.symm]
  rfl

section Report

variable {keep : Candidate α → Bool} {bodyOf : α → List Char}

/-- What the text reads is reported when the search keeps it and no earlier candidate reaches
across its start. -/
theorem mem_report_iff (hs : shape.IsExact) (hw : shape.Takes w v)
    (htext : text.toList = before ++ w ++ rest) :
    (⟨byteLength before, .ofList (bodyOf v)⟩ : Span) ∈ report shape keep bodyOf text ↔
      ¬ IsCovered shape text (byteLength before) ∧
        keep ((⟨v, byteLength w, rest⟩ : Match α).at before) = true := by
  rw [List.append_assoc] at htext
  rw [← at_mem_candidates_iff hs htext (hw rest), ← List.mem_filter]
  constructor
  · intro h
    obtain ⟨c, hc, hspan⟩ := List.mem_map.mp h
    have hoffset : c.offset = byteLength before := congrArg Span.offset hspan
    rwa [eq_at_of_offset_eq hs (List.mem_filter.mp hc).1 htext (hw rest) hoffset] at hc
  · exact fun h => List.mem_map.mpr ⟨_, h, rfl⟩

variable {allowed : Char → Bool} {forms : List (List Char → List Char)}

/-- A search that reads its forms, and keeps a piece unless it skips it, misses the pieces that are
covered or skipped. -/
theorem findsWritten_report (skips : Nat → List Char → Prop) (hs : shape.IsExact)
    (hforms : ∀ form ∈ forms, ∀ body, IsBody allowed body → ∃ v,
      shape.Takes (form body) v ∧ bodyOf v = body ∧
      ∀ before rest, text.toList = before ++ form body ++ rest →
        (keep ((⟨v, byteLength (form body), rest⟩ : Match α).at before) = true ↔
          ¬ skips (byteLength before) (form body)))
    (hwritten : ∀ a ∈ report shape keep bodyOf text, IsBody allowed a.body.toList ∧
      ∃ form ∈ forms, ReadsAt text a.offset (form a.body.toList)) :
    FindsWritten text (report shape keep bodyOf text) allowed forms
      fun offset w => IsCovered shape text offset ∨ skips offset w where
  ascending := List.pairwise_map.mpr ((pairwise_offset_candidates hs text).filter _)
  disjoint := by
    have hends := (pairwise_candidatesAfter hs [] text.toList).filter keep
    refine List.pairwise_map.mpr (hends.imp_of_mem fun {a b} ha _ hend form hform hreads => ?_)
    obtain ⟨hbody, -⟩ := hwritten _ (List.mem_map_of_mem ha)
    obtain ⟨v, hv, -⟩ := hforms form hform _ hbody
    rw [← length_of_readsAt hs hv (List.mem_filter.mp ha).1 hreads]
    exact hend
  written := hwritten
  left_out form hform body offset hbody hreads := by
    obtain ⟨before, rest, htext, rfl⟩ := hreads
    obtain ⟨v, hv, rfl, hkeep⟩ := hforms form hform body hbody
    rw [mem_report_iff hs hv htext, hkeep before rest htext, ← not_or, not_not]

end Report

/-- The two characters next to a piece are stars when the text reads it between stars. -/
theorem isBetweenStars_iff (htext : text.toList = before ++ w ++ rest) :
    before.getLast? = some '*' ∧ rest.head? = some '*' ↔
      ∃ p, p + 1 = byteLength before ∧ ReadsAt text p (betweenStars w) := by
  constructor
  · rintro ⟨hlast, hhead⟩
    obtain ⟨before, rfl⟩ := List.getLast?_eq_some_iff.mp hlast
    obtain ⟨rest, rfl⟩ := List.head?_eq_some_iff.mp hhead
    refine ⟨byteLength before, by rw [byteLength_append]; rfl, before, rest, ?_, rfl⟩
    simpa [betweenStars] using htext
  · rintro ⟨p, hp, before', rest', htext', rfl⟩
    have hjoin : (before' ++ ['*']) ++ (w ++ '*' :: rest') = before ++ (w ++ rest) := by
      rw [← List.append_assoc before, ← htext, htext']
      simp [betweenStars]
    have hlength : byteLength (before' ++ ['*']) = byteLength before := by
      rw [byteLength_append, ← hp]
      rfl
    obtain ⟨rfl, hbehind⟩ := append_inj_of_byteLength hjoin hlength
    obtain rfl := List.append_cancel_left hbehind
    exact ⟨by simp, rfl⟩

theorem findsWritten_anchors (text : String) :
    FindsWritten text (anchors text) isAnchorBody [plainAnchor, hiddenAnchor]
      fun offset _ => IsCovered anchorShape text offset := by
  have hfinds : FindsWritten text (anchors text) isAnchorBody [plainAnchor, hiddenAnchor]
      fun offset _ => IsCovered anchorShape text offset ∨ False := by
    refine findsWritten_report (fun _ _ => False) isExact_anchorShape
      (fun form hform body hbody => ?_) fun a ha => ?_
    · simp only [List.mem_cons, List.not_mem_nil, or_false] at hform
      rcases hform with rfl | rfl
      · exact ⟨_, takes_plainAnchor hbody, rfl,
          fun _ _ _ => by simp [Match.at, AnchorParts.isBalanced]⟩
      · exact ⟨_, takes_hiddenAnchor hbody, rfl,
          fun _ _ _ => by simp [Match.at, AnchorParts.isBalanced]⟩
    · obtain ⟨before, hidden, body, rest, htext, rfl, hbody⟩ := exists_stars ha
      rw [String.toList_ofList]
      refine ⟨hbody, ?_⟩
      cases hidden with
      | false =>
        exact ⟨plainAnchor, by simp, before, rest, by simpa [plainAnchor] using htext, rfl⟩
      | true =>
        exact ⟨hiddenAnchor, by simp, before, rest, by simpa [hiddenAnchor] using htext, rfl⟩
  simpa only [or_false] using hfinds

theorem findsWritten_links (text : String) :
    FindsWritten text (links text) isLinkBody [barred] fun offset w =>
      IsCovered linkShape text offset ∨ ∃ p, p + 1 = offset ∧ ReadsAt text p (betweenStars w) := by
  have hfinds : FindsWritten text (report linkShape (·.isLink) id text) isLinkBody [barred]
      fun offset w => IsCovered linkShape text offset ∨
        ∃ p, p + 1 = offset ∧ ReadsAt text p (betweenStars w) := by
    refine findsWritten_report
      (fun offset w => ∃ p, p + 1 = offset ∧ ReadsAt text p (betweenStars w))
      isExact_linkShape (fun form hform body hbody => ?_) fun a ha => ?_
    · obtain rfl := List.mem_singleton.mp hform
      refine ⟨body, takes_barred hbody, rfl, fun before rest htext => ?_⟩
      rw [← isBetweenStars_iff htext]
      simp [Candidate.isLink, Match.at, imp_iff_not_or]
    · obtain ⟨c, hc, rfl⟩ := List.mem_map.mp ha
      obtain ⟨before, rest, htext, hoffset, -, -, hbody⟩ := exists_bars (List.mem_filter.mp hc).1
      rw [String.toList_ofList]
      refine ⟨hbody, barred, List.mem_singleton_self _, before, rest, ?_, hoffset.symm⟩
      simpa [barred] using htext
  exact hfinds

/-- Where a shape takes only what its values are written as, a candidate is what its value is
written as. -/
theorem readsAt_of_mem_candidates (write : α → List Char) (hs : shape.IsExact)
    (hwrite : ∀ {cs m}, shape.match? cs = some m →
      cs = write m.value ++ m.rest ∧ m.length = byteLength (write m.value))
    (hc : c ∈ candidates shape text) :
    ReadsAt text c.offset (write c.value) ∧ c.length = byteLength (write c.value) := by
  obtain ⟨before, rest, m, htext, hm, rfl⟩ := stands_of_mem_candidates hs hc
  obtain ⟨hrest, hlength⟩ := hwrite hm
  exact ⟨⟨before, m.rest, by rw [htext, hrest, List.append_assoc]; rfl, rfl⟩, hlength⟩

theorem anchorMatch?_written {cs : List Char} {m : Match AnchorParts}
    (h : anchorShape.match? cs = some m) : cs = ('*' :: m.value.written ++ ['*']) ++ m.rest ∧
      m.length = byteLength ('*' :: m.value.written ++ ['*']) := by
  obtain ⟨-, -, hcs, hlength⟩ := anchorMatch?_eq_some_iff.mp h
  exact ⟨by simpa using hcs, hlength⟩

theorem linkMatch?_barred {cs : List Char} {m : Match (List Char)}
    (h : linkShape.match? cs = some m) :
    cs = barred m.value ++ m.rest ∧ m.length = byteLength (barred m.value) := by
  obtain ⟨-, -, hcs, hlength⟩ := linkMatch?_eq_some_iff.mp h
  exact ⟨by simpa [barred] using hcs, hlength⟩

/-- The anchors miss what starts inside an earlier candidate, balanced or not. The links miss that
too, and what stands between stars. -/
theorem finds_written_unless_covered (text : String) :
    FindsWritten text (anchors text) isAnchorBody [plainAnchor, hiddenAnchor]
      (fun offset _ => ∃ c ∈ candidates anchorShape text, c.Covers offset) ∧
    FindsWritten text (links text) isLinkBody [barred]
      (fun offset w => (∃ c ∈ candidates linkShape text, c.Covers offset) ∨
        ∃ p, p + 1 = offset ∧ ReadsAt text p (betweenStars w)) ∧
    (∀ c ∈ candidates anchorShape text, ReadsAt text c.offset ('*' :: c.value.written ++ ['*']) ∧
      c.length = byteLength ('*' :: c.value.written ++ ['*'])) ∧
    ∀ c ∈ candidates linkShape text, ReadsAt text c.offset (barred c.value) ∧
      c.length = byteLength (barred c.value) :=
  ⟨findsWritten_anchors text, findsWritten_links text,
    fun _ hc => readsAt_of_mem_candidates (fun a => '*' :: a.written ++ ['*'])
      isExact_anchorShape anchorMatch?_written hc,
    fun _ hc => readsAt_of_mem_candidates barred isExact_linkShape linkMatch?_barred hc⟩

/-- The star that closes an anchor opens no hidden one, and the bars behind it make no link. -/
theorem closing_star_opens_none : IsBody isAnchorBody ['b'] ∧ IsBody isLinkBody ['b'] ∧
    ReadsAt "*a*|b|*|c|" 2 (hiddenAnchor ['b']) ∧ ReadsAt "*a*|b|*|c|" 3 (barred ['b']) ∧
    (⟨2, .ofList ['b']⟩ : Span) ∉ anchors "*a*|b|*|c|" ∧
    (⟨3, .ofList ['b']⟩ : Span) ∉ links "*a*|b|*|c|" := by
  obtain ⟨hanchors, hlinks, -, -⟩ := finds_written_unless_covered "*a*|b|*|c|"
  have hanchor : IsBody isAnchorBody ['b'] :=
    ⟨List.cons_ne_nil _ _, List.forall_mem_singleton.mpr rfl⟩
  have hlink : IsBody isLinkBody ['b'] :=
    ⟨List.cons_ne_nil _ _, List.forall_mem_singleton.mpr rfl⟩
  have hhidden : ReadsAt "*a*|b|*|c|" 2 (hiddenAnchor ['b']) := by decide +kernel
  have hbarred : ReadsAt "*a*|b|*|c|" 3 (barred ['b']) := by decide +kernel
  have hstars : ReadsAt "*a*|b|*|c|" 2 (betweenStars (barred ['b'])) := by decide +kernel
  have hfirst : ∃ c ∈ candidates anchorShape "*a*|b|*|c|", c.offset < 2 ∧ 2 < c.offset + c.length :=
    by decide +kernel
  refine ⟨hanchor, hlink, hhidden, hbarred, ?_, ?_⟩
  · exact (hanchors.left_out hiddenAnchor (by simp) _ _ hanchor hhidden).mpr hfirst
  · exact (hlinks.left_out barred (by simp) _ _ hlink hbarred).mpr (.inr ⟨2, rfl, hstars⟩)

end HelpAudit.Markup
