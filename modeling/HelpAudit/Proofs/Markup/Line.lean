import HelpAudit.Proofs.Markup.Position

/-!
Markup line by line. No match takes a line feed and none depends on what lies behind one, so the
markup of a line is found in the line alone, whatever stands above or below it.
-/
namespace HelpAudit.Markup

open Text

variable {α : Type} {shape : Shape α}

/-- The match, before more text. -/
def Match.append (m : Match α) (more : List Char) : Match α := ⟨m.value, m.length, m.rest ++ more⟩

/-- What matches before a line feed is what matches at the end of a text. -/
def Shape.EndsAtLine (shape : Shape α) : Prop :=
  ∀ cs more, shape.match? (cs ++ '\n' :: more) =
    (shape.match? cs).map (·.append ('\n' :: more))

/-- What holds no line feed ends before the first one. -/
theorem append_eq_before_newline {cs more taken rest : List Char}
    (h : cs ++ '\n' :: more = taken ++ rest) (htaken : '\n' ∉ taken) :
    ∃ left, cs = taken ++ left ∧ rest = left ++ '\n' :: more := by
  rcases List.append_eq_append_iff.mp h with ⟨inner, rfl, hrest⟩ | ⟨left, rfl, hrest⟩
  · cases inner with
    | nil => exact ⟨[], by simp, hrest.symm⟩
    | cons c inner =>
      obtain ⟨rfl, -⟩ := List.cons.inj hrest
      simp at htaken
  · exact ⟨left, rfl, hrest⟩

theorem endsAtLine_linkShape : linkShape.EndsAtLine := by
  intro cs more
  ext m
  rw [match?_linkShape, match?_linkShape, Option.map_eq_some_iff]
  constructor
  · intro h
    obtain ⟨hne, hbody, hcs, hlength⟩ := linkMatch?_eq_some_iff.mp h
    have htaken : '\n' ∉ '|' :: m.value ++ ['|'] := by
      have hvalue : '\n' ∉ m.value := fun hm => (isLinkBody_iff.mp (hbody _ hm)).2 rfl
      simp [hvalue]
    obtain ⟨left, rfl, hrest⟩ := append_eq_before_newline (by simpa using hcs) htaken
    refine ⟨⟨m.value, m.length, left⟩, ?_, by rw [Match.append, ← hrest]⟩
    exact linkMatch?_eq_some_iff.mpr ⟨hne, hbody, by simp, hlength⟩
  · rintro ⟨m, h, rfl⟩
    obtain ⟨hne, hbody, rfl, hlength⟩ := linkMatch?_eq_some_iff.mp h
    exact linkMatch?_eq_some_iff.mpr ⟨hne, hbody, by simp [Match.append], hlength⟩

theorem endsAtLine_anchorShape : anchorShape.EndsAtLine := by
  intro cs more
  ext m
  rw [match?_anchorShape, match?_anchorShape, Option.map_eq_some_iff]
  constructor
  · intro h
    obtain ⟨hne, hbody, hcs, hlength⟩ := anchorMatch?_eq_some_iff.mp h
    have htaken : '\n' ∉ '*' :: m.value.written ++ ['*'] := by
      have hvalue : '\n' ∉ m.value.body := fun hm => (isAnchorBody_iff.mp (hbody _ hm)).2.2 rfl
      have hbar (b : Bool) : '\n' ∉ bar b := by cases b <;> simp
      simp [AnchorParts.written, hvalue, hbar]
    obtain ⟨left, rfl, hrest⟩ := append_eq_before_newline (by simpa using hcs) htaken
    refine ⟨⟨m.value, m.length, left⟩, ?_, by rw [Match.append, ← hrest]⟩
    exact anchorMatch?_eq_some_iff.mpr ⟨hne, hbody, by simp, hlength⟩
  · rintro ⟨m, h, rfl⟩
    obtain ⟨hne, hbody, rfl, hlength⟩ := anchorMatch?_eq_some_iff.mp h
    exact anchorMatch?_eq_some_iff.mpr ⟨hne, hbody, by simp [Match.append], hlength⟩

namespace Candidate

/-- The candidate with a line feed behind the text. -/
def closed (c : Candidate α) : Candidate α := { c with after := c.after.or (some '\n') }

/-- The candidate behind `n` bytes of text that end in a line feed. -/
def opened (n : Nat) (c : Candidate α) : Candidate α :=
  { c with offset := n + c.offset, before := c.before.or (some '\n') }

end Candidate

theorem at_append (m : Match α) (before more : List Char) :
    (m.append ('\n' :: more)).at before = (m.at before).closed := by
  have hhead : (m.rest ++ '\n' :: more).head? = m.rest.head?.or (some '\n') := by
    cases m.rest <;> rfl
  rw [Match.append, Match.at, Match.at, Candidate.closed, hhead]

/-- Up to a line feed the search finds what it finds in the text that ends there. -/
theorem candidatesAfter_newline (hs : shape.IsExact) (hl : shape.EndsAtLine)
    (before cs more : List Char) :
    candidatesAfter shape before (cs ++ '\n' :: more) =
      (candidatesAfter shape before cs).map (·.closed) ++
        candidatesAfter shape (before ++ cs ++ ['\n']) more := by
  induction before, cs using search_induction hs with
  | nil before =>
    have hnone : shape.match? [] = none := by
      cases hm : shape.match? [] with
      | none => rfl
      | some m =>
        obtain ⟨inner, hcs, -⟩ := hs hm
        simp at hcs
    have hfeed : shape.match? ('\n' :: more) = none := by
      rw [← List.nil_append ('\n' :: more), hl, hnone, Option.map_none]
    rw [List.nil_append, candidatesAfter_of_none hfeed]
    simp
  | skip before d cs hm ih =>
    have hmore : shape.match? (d :: (cs ++ '\n' :: more)) = none := by
      rw [← List.cons_append, hl, hm, Option.map_none]
    rw [List.cons_append, candidatesAfter_of_none hmore, candidatesAfter_of_none hm, ih,
      ← List.append_cons before d cs]
  | found before taken m hm hne hlength hcandidates ih =>
    -- The match is the same one with more text behind it, and only its `after` may change.
    have hmore : shape.match? (taken ++ (m.append ('\n' :: more)).rest) =
        some (m.append ('\n' :: more)) := by
      rw [Match.append, ← List.append_assoc, hl, hm, Option.map_some]
      rfl
    have hfound := candidatesAfter_append hs before hmore
    rw [at_append] at hfound
    rw [List.append_assoc, hcandidates]
    change candidatesAfter shape before (taken ++ (m.append ('\n' :: more)).rest) = _
    rw [hfound, List.map_cons, List.cons_append, ← List.append_assoc before taken m.rest]
    exact congrArg _ ih

/-- Behind a line feed the search finds what it finds from the start of a text. -/
theorem candidatesAfter_opened (hs : shape.IsExact) (s before cs : List Char) :
    candidatesAfter shape (s ++ '\n' :: before) cs =
      (candidatesAfter shape before cs).map (·.opened (byteLength s + 1)) := by
  have hfeed : '\n'.utf8Size = 1 := rfl
  induction before, cs using search_induction hs with
  | nil before => simp
  | skip before d cs hm ih =>
    rw [candidatesAfter_of_none hm, candidatesAfter_of_none hm, List.append_assoc, List.cons_append,
      ih]
  | found before taken m hm hne hlength hcandidates ih =>
    have hat : m.at (s ++ '\n' :: before) = (m.at before).opened (byteLength s + 1) := by
      have hlast : (s ++ '\n' :: before).getLast? = before.getLast?.or (some '\n') := by
        rw [List.getLast?_append, List.getLast?_cons]
        cases before.getLast? <;> rfl
      rw [Match.at, Match.at, Candidate.opened, hlast, byteLength_append, byteLength_cons, hfeed,
        Nat.add_assoc]
    rw [candidatesAfter_append hs _ hm, hcandidates, List.map_cons, hat, List.append_assoc,
      List.cons_append, ih]

/-- The span behind `n` more bytes. -/
def Span.shift (n : Nat) (a : Span) : Span := ⟨n + a.offset, a.body⟩

/-- What a search reports: the candidates that it keeps, each with its body. -/
def report (shape : Shape α) (keep : Candidate α → Bool) (body : α → List Char) (text : String) :
    List Span :=
  ((candidates shape text).filter keep).map fun c => ⟨c.offset, .ofList (body c.value)⟩

/-- A search takes the end of a line for the end of a text, and its start for the start. -/
structure KeepsAtLine (keep : Candidate α → Bool) : Prop where
  closed : ∀ c, keep c.closed = keep c
  opened : ∀ n c, keep (c.opened n) = keep c

theorem report_newline (hs : shape.IsExact) (hl : shape.EndsAtLine) {keep : Candidate α → Bool}
    (hk : KeepsAtLine keep) (body : α → List Char) (s t : String) :
    report shape keep body (s ++ "\n" ++ t) = report shape keep body s ++
      (report shape keep body t).map (·.shift (s.utf8ByteSize + 1)) := by
  have hclosed : keep ∘ Candidate.closed = keep := funext hk.closed
  have hopened : keep ∘ Candidate.opened (s.utf8ByteSize + 1) = keep := funext (hk.opened _)
  have hbehind := candidatesAfter_opened hs s.toList [] t.toList
  rw [byteLength_toList] at hbehind
  have htext : (s ++ "\n" ++ t).toList = s.toList ++ '\n' :: t.toList := by simp
  unfold report
  rw [candidates_eq, htext, candidatesAfter_newline hs hl, List.nil_append, hbehind,
    List.filter_append, List.map_append, List.filter_map, List.filter_map, hclosed, hopened,
    List.map_map, List.map_map, List.map_map]
  rfl

theorem keepsAtLine_isBalanced :
    KeepsAtLine fun c : Candidate AnchorParts => c.value.isBalanced where
  closed _ := rfl
  opened _ _ := rfl

theorem keepsAtLine_isLink : KeepsAtLine Candidate.isLink where
  closed c := by
    obtain ⟨offset, before, after, value, length⟩ := c
    cases after <;> rfl
  opened n c := by
    obtain ⟨offset, before, after, value, length⟩ := c
    cases before <;> rfl

/-- Column and body of each span on a line. -/
def onLine (find : String → List Span) (text : String) (line : Nat) : List (Nat × String) :=
  ((find text).filter fun a => (a.position text).line = line).map
    fun a => ((a.position text).column, a.body)

/-- A search that looks at one line at a time. -/
structure LineByLine (find : String → List Span) : Prop where
  /-- In a text followed by a line feed and another text are the spans of both. -/
  joined : ∀ s t, find (s ++ "\n" ++ t) = find s ++ (find t).map (·.shift (s.utf8ByteSize + 1))
  /-- Those of the first text stay where they are. -/
  above : ∀ s t, ∀ a ∈ find s, a.position (s ++ "\n" ++ t) = a.position s
  /-- Those of the second keep their columns, and go down by the lines of the first. -/
  under : ∀ s t, ∀ a ∈ find t, (a.shift (s.utf8ByteSize + 1)).position (s ++ "\n" ++ t) =
    ⟨(a.position t).line + 1 + s.toList.count '\n', (a.position t).column⟩
  /-- A line holds the same markup in the same columns in all texts that have it. -/
  shared : ∀ s t m n, (pieces s.toList)[m]? = (pieces t.toList)[n]? →
    onLine find s (m + 1) = onLine find t (n + 1)

/-- A search that finds in joined texts what it finds in each, in places of the text. -/
structure IsLocal (find : String → List Span) : Prop where
  joined : ∀ s t, find (s ++ "\n" ++ t) = find s ++ (find t).map (·.shift (s.utf8ByteSize + 1))
  opens : ∀ text, ∀ a ∈ find text, ∃ delimiter, a.Opens delimiter text

namespace IsLocal

variable {find : String → List Span} (h : IsLocal find)
include h

theorem position_above {s : String} {a : Span} (ha : a ∈ find s) (t : String) :
    a.position (s ++ "\n" ++ t) = a.position s := by
  obtain ⟨delimiter, hopens⟩ := h.opens s a ha
  obtain ⟨before, rest, htext, hoffset, hplace⟩ := Span.position_of_opens hopens
  have hjoin : (s ++ "\n" ++ t).toList = before ++ (delimiter :: rest ++ '\n' :: t.toList) := by
    simp [htext]
  rw [hplace, Span.position, hoffset, Position.ofOffset_byteLength hjoin]

theorem position_under (s : String) {t : String} {a : Span} (ha : a ∈ find t) :
    (a.shift (s.utf8ByteSize + 1)).position (s ++ "\n" ++ t) =
      (a.position t).below (s.toList.count '\n' + 1) := by
  obtain ⟨delimiter, hopens⟩ := h.opens t a ha
  obtain ⟨before, rest, htext, hoffset, hplace⟩ := Span.position_of_opens hopens
  have hjoin : (s ++ "\n" ++ t).toList = (s.toList ++ '\n' :: before) ++ delimiter :: rest := by
    simp [htext]
  have hsum : s.utf8ByteSize + 1 + a.offset = byteLength (s.toList ++ '\n' :: before) := by
    have hfeed : '\n'.utf8Size = 1 := rfl
    rw [byteLength_append, byteLength_cons, byteLength_toList, hoffset, hfeed, Nat.add_assoc]
  rw [hplace, Span.position, Span.shift, hsum, Position.ofOffset_byteLength hjoin,
    Position.after_append_newline]

theorem line_of_not_mem {s : String} (hs : '\n' ∉ s.toList) {a : Span} (ha : a ∈ find s) :
    (a.position s).line = 1 := by
  obtain ⟨delimiter, hopens⟩ := h.opens s a ha
  obtain ⟨before, rest, htext, -, hplace⟩ := Span.position_of_opens hopens
  have hbefore : '\n' ∉ before := fun hm => hs (htext ▸ List.mem_append_left _ hm)
  rw [hplace, Position.after, Position.foldl_next_of_not_mem hbefore, Position.start]

theorem line_pos {s : String} {a : Span} (ha : a ∈ find s) : (a.position s).line ≠ 0 := by
  obtain ⟨delimiter, hopens⟩ := h.opens s a ha
  obtain ⟨before, -, -, -, hplace⟩ := Span.position_of_opens hopens
  rw [hplace]
  exact Position.line_after_ne_zero before

theorem onLine_joined (s t : String) (line : Nat) :
    onLine find (s ++ "\n" ++ t) line = onLine find s line ++
      ((find t).filter fun a => (a.position t).line + (s.toList.count '\n' + 1) = line).map
        fun a => ((a.position t).column, a.body) := by
  unfold onLine
  rw [h.joined, List.filter_append, List.map_append, List.filter_map, List.map_map]
  congr 1
  · have habove : (find s).filter (fun a => (a.position (s ++ "\n" ++ t)).line = line) =
        (find s).filter fun a => (a.position s).line = line :=
      List.filter_congr fun a ha => by rw [h.position_above ha]
    rw [habove]
    refine List.map_congr_left fun a ha => ?_
    rw [h.position_above (List.mem_filter.mp ha).1]
  · have hunder : (find t).filter ((fun a => (a.position (s ++ "\n" ++ t)).line = line) ∘
          Span.shift (s.utf8ByteSize + 1)) =
        (find t).filter fun a => (a.position t).line + (s.toList.count '\n' + 1) = line :=
      List.filter_congr fun a ha => by
        rw [Function.comp_apply, h.position_under s ha]
        rfl
    rw [hunder]
    refine List.map_congr_left fun a ha => ?_
    rw [Function.comp_apply, h.position_under s (List.mem_filter.mp ha).1]
    rfl

theorem onLine_of_not_mem {s : String} (hs : '\n' ∉ s.toList) (n : Nat) :
    onLine find s (n + 2) = [] := by
  have hnone : (find s).filter (fun a => (a.position s).line = n + 2) = [] := by
    refine List.filter_eq_nil_iff.mpr fun a ha => ?_
    rw [h.line_of_not_mem hs ha, decide_eq_true_eq]
    omega
  rw [onLine, hnone]
  rfl

/-- What stands on a line is what stands in the line as a text of its own. -/
theorem onLine_eq (text : String) (n : Nat) : onLine find text (n + 1) =
    ((pieces text.toList)[n]?.map fun line => onLine find (.ofList line) 1).getD [] := by
  suffices hlist : ∀ cs : List Char, ∀ n, onLine find (.ofList cs) (n + 1) =
      ((pieces cs)[n]?.map fun line => onLine find (.ofList line) 1).getD [] by
    rw [← hlist, String.ofList_toList]
  intro cs
  -- The first line has its own markup, and that of the lines below goes one line down.
  induction cs using line_induction with
  | last line hline =>
    intro n
    rw [pieces_of_not_mem hline]
    cases n with
    | zero => rfl
    | succ n => exact h.onLine_of_not_mem (by rwa [String.toList_ofList]) n
  | more line rest hline ih =>
    intro n
    have htext : String.ofList (line ++ '\n' :: rest) =
        .ofList line ++ "\n" ++ .ofList rest := String.toList_injective (by simp)
    have hplain : '\n' ∉ (String.ofList line).toList := by rwa [String.toList_ofList]
    rw [htext, h.onLine_joined, List.count_eq_zero_of_not_mem hplain, pieces_append_newline,
      pieces_of_not_mem hline]
    cases n with
    | zero =>
      have hnone : (find (.ofList rest)).filter
          (fun a => (a.position (.ofList rest)).line + (0 + 1) = 0 + 1) = [] := by
        refine List.filter_eq_nil_iff.mpr fun a ha => ?_
        have hpos := h.line_pos ha
        simpa using hpos
      rw [hnone, List.map_nil, List.append_nil]
      rfl
    | succ n =>
      rw [h.onLine_of_not_mem hplain, List.nil_append, List.singleton_append,
        List.getElem?_cons_succ, ← ih, onLine]
      simp only [Nat.zero_add, Nat.add_right_cancel_iff]

theorem lineByLine : LineByLine find where
  joined := h.joined
  above s t _ ha := h.position_above ha t
  under s t a ha := by
    rw [h.position_under s ha, Position.below, Nat.add_assoc, Nat.add_comm 1]
  shared s t m n hline := by rw [h.onLine_eq, h.onLine_eq, hline]

end IsLocal

theorem isLocal_anchors : IsLocal anchors where
  joined :=
    report_newline isExact_anchorShape endsAtLine_anchorShape keepsAtLine_isBalanced (·.body)
  opens _ _ ha := ⟨_, opens_of_mem_anchors ha⟩

theorem isLocal_links : IsLocal links where
  joined := report_newline isExact_linkShape endsAtLine_linkShape keepsAtLine_isLink id
  opens _ _ ha := ⟨_, opens_of_mem_links ha⟩

/-- Anchors and links are found line by line. So a change within one line leaves the markup of all
other lines as it is, and new lines only move it down. -/
theorem lineByLine_scan : LineByLine anchors ∧ LineByLine links :=
  ⟨isLocal_anchors.lineByLine, isLocal_links.lineByLine⟩

/-- The second line of the one text is the third of the other, below bars without a partner. -/
theorem onLine_below_bars :
    (pieces "x|\n*a* |b|".toList)[1]? = (pieces "|x|\n*|\n*a* |b|\n".toList)[2]? ∧
      onLine links "x|\n*a* |b|" 2 = onLine links "|x|\n*|\n*a* |b|\n" 3 ∧
      onLine links "x|\n*a* |b|" 2 = [(5, "b")] := by
  have hline : (pieces "x|\n*a* |b|".toList)[1]? = (pieces "|x|\n*|\n*a* |b|\n".toList)[2]? := by
    decide +kernel
  exact ⟨hline, lineByLine_scan.2.shared _ _ 1 2 hline, by decide +kernel⟩

end HelpAudit.Markup
