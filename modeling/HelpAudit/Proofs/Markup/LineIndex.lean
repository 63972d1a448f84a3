import HelpAudit.Proofs.Markup.Position
import HelpAudit.Proofs.Search
import Mathlib.Data.List.DropRight
import Mathlib.Data.Nat.Count

/-!
Places by an index of the lines. The index holds the offset at which each line starts, and a search
by halves finds the last of them that is not past an offset. Each look-up of a start and each
difference is checked here, and none of them fails. A place found so is the one that a walk over
the text finds, and a walk to a line and a character leads back to the offset.
-/
namespace HelpAudit

open Text Ascending

/-- A difference that is not below zero. -/
def difference? (a b : Nat) : Option Nat := if b ≤ a then some (a - b) else none

/-- The characters between two byte offsets. There are none when the offsets are out of order,
inside a character or past the end. -/
def slice? (text : String) (start stop : Nat) : Option (List Char) :=
  if start ≤ stop then
    (cut? text.toList start).bind fun p => (cut? p.2 (stop - start)).map (·.1)
  else none

/-- The byte offsets of the line feeds in a text that starts at `offset`. -/
def feedsFrom (offset : Nat) : List Char → List Nat
  | [] => []
  | c :: cs =>
    if c = '\n' then offset :: feedsFrom (offset + c.utf8Size) cs
    else feedsFrom (offset + c.utf8Size) cs

/-- The byte offsets at which the lines of a text start. -/
structure LineIndex where
  starts : List Nat

namespace LineIndex

def ofText (text : String) : LineIndex := ⟨0 :: (feedsFrom 0 text.toList).map (· + 1)⟩

/-- The number of the last line that starts at the offset or before it. -/
def line? (index : LineIndex) (offset : Nat) : Option Nat :=
  (search? index.starts offset).bind fun
    | .ok exact => some exact
    | .error next => difference? next 1

/-- The column counts the characters from the start of the line on, or the bytes if these are no
text. -/
def position? (index : LineIndex) (text : String) (offset : Nat) : Option Position := do
  let line ← index.line? offset
  let start ← index.starts[line]?
  let stop := min offset text.utf8ByteSize
  let bytes ← difference? stop start
  let column := (slice? text start stop).elim bytes List.length
  some ⟨line + 1, column + 1⟩

end LineIndex

namespace Position

/-- The bytes up to a character, when `lines` lines and then `chars` characters of the next line
stand before it. -/
def walk? (lines chars : Nat) : List Char → Option Nat
  | [] => if lines = 0 ∧ chars = 0 then some 0 else none
  | c :: cs =>
    match lines, chars with
    | 0, 0 => some 0
    | 0, chars + 1 => if c = '\n' then none else (walk? 0 chars cs).map (c.utf8Size + ·)
    | lines + 1, chars =>
      (walk? (if c = '\n' then lines else lines + 1) chars cs).map (c.utf8Size + ·)

/-- The byte offset of a place in a text. -/
def offset? (cs : List Char) : Position → Option Nat
  | ⟨line + 1, column + 1⟩ => walk? line column cs
  | _ => none

variable {a cs line rest : List Char} {lines chars bytes left : Nat}

theorem advance_cons (lines chars bytes left : Nat) (c : Char) (cs : List Char) :
    advance lines chars bytes (c.utf8Size + left) (c :: cs) =
      if c = '\n' then advance (lines + 1) 0 0 left cs
      else advance lines (chars + 1) (bytes + c.utf8Size) left cs := by
  have hpos := c.utf8Size_pos
  rw [advance, if_neg (by omega), if_neg (by omega), Nat.add_sub_cancel_left]

theorem advance_lines :
    advance lines chars bytes (byteLength (a ++ ['\n']) + left) (a ++ '\n' :: cs) =
      advance (lines + (a ++ ['\n']).count '\n') 0 0 left cs := by
  induction a generalizing lines chars bytes with
  | nil => exact advance_cons lines chars bytes left '\n' cs
  | cons c a ih =>
    rw [List.cons_append, List.cons_append, byteLength_cons, Nat.add_assoc, advance_cons,
      List.count_cons]
    by_cases hc : c = '\n'
    · rw [if_pos hc, ih, if_pos (by simpa using hc), Nat.add_right_comm, Nat.add_assoc]
    · rw [if_neg hc, ih, if_neg (by simpa using hc), Nat.add_zero]

theorem advance_line (h : '\n' ∉ line) :
    advance lines chars bytes (byteLength line + left) (line ++ cs) =
      advance lines (chars + line.length) (bytes + byteLength line) left cs := by
  induction line generalizing chars bytes with
  | nil => simp
  | cons c line ih =>
    obtain ⟨hc, hline⟩ := not_or.mp (mt List.mem_cons.mpr h)
    rw [List.cons_append, byteLength_cons, Nat.add_assoc, advance_cons, if_neg (Ne.symm hc),
      ih hline, List.length_cons]
    congr 1 <;> omega

theorem walk?_lines : walk? (a.count '\n' + 1) chars (a ++ '\n' :: cs) =
    (walk? 0 chars cs).map (byteLength (a ++ ['\n']) + ·) := by
  induction a with
  | nil => rfl
  | cons c a ih =>
    rw [List.cons_append, List.cons_append, byteLength_cons, List.count_cons]
    have hstep : walk? (a.count '\n' + (if c == '\n' then 1 else 0) + 1) chars
        (c :: (a ++ '\n' :: cs)) =
        (walk? (a.count '\n' + 1) chars (a ++ '\n' :: cs)).map (c.utf8Size + ·) := by
      rw [walk?]
      by_cases hc : c = '\n'
      · simp [hc]
      · simp [hc]
    rw [hstep, ih, Option.map_map]
    simp only [Function.comp_def, Nat.add_assoc]

theorem walk?_line (h : '\n' ∉ line) :
    walk? 0 line.length (line ++ rest) = some (byteLength line) := by
  induction line with
  | nil => cases rest <;> rfl
  | cons c line ih =>
    obtain ⟨hc, hline⟩ := not_or.mp (mt List.mem_cons.mpr h)
    rw [List.cons_append, List.length_cons, walk?, if_neg (Ne.symm hc), ih hline]
    rfl

end Position

section Feeds

variable {offset i : Nat} {cs line a b : List Char}

theorem utf8Size_feed : '\n'.utf8Size = 1 := rfl

theorem feedsFrom_append (offset : Nat) (a b : List Char) :
    feedsFrom offset (a ++ b) = feedsFrom offset a ++ feedsFrom (offset + byteLength a) b := by
  induction a generalizing offset with
  | nil => rfl
  | cons c a ih =>
    rw [List.cons_append, feedsFrom, feedsFrom, ih, byteLength_cons, ← Nat.add_assoc]
    split <;> rfl

theorem feedsFrom_of_not_mem (h : '\n' ∉ line) : feedsFrom offset line = [] := by
  induction line generalizing offset with
  | nil => rfl
  | cons c line ih =>
    obtain ⟨hc, hline⟩ := not_or.mp (mt List.mem_cons.mpr h)
    rw [feedsFrom, if_neg (Ne.symm hc), ih hline]

theorem length_feedsFrom (offset : Nat) (cs : List Char) :
    (feedsFrom offset cs).length = cs.count '\n' := by
  induction cs generalizing offset with
  | nil => rfl
  | cons c cs ih =>
    rw [feedsFrom, List.count_cons]
    by_cases h : c = '\n'
    · simp [h, ih]
    · simp [h, ih]

theorem mem_feedsFrom_iff : i ∈ feedsFrom offset cs ↔
    ∃ before rest, cs = before ++ '\n' :: rest ∧ i = offset + byteLength before := by
  constructor
  · intro h
    induction cs generalizing offset with
    | nil => cases h
    | cons c cs ih =>
      by_cases hc : c = '\n'
      · rw [feedsFrom, if_pos hc] at h
        rcases List.mem_cons.mp h with rfl | h
        · exact ⟨[], cs, by rw [hc]; rfl, rfl⟩
        · obtain ⟨before, rest, rfl, rfl⟩ := ih h
          exact ⟨c :: before, rest, rfl, by rw [byteLength_cons, Nat.add_assoc]⟩
      · rw [feedsFrom, if_neg hc] at h
        obtain ⟨before, rest, rfl, rfl⟩ := ih h
        exact ⟨c :: before, rest, rfl, by rw [byteLength_cons, Nat.add_assoc]⟩
  · rintro ⟨before, rest, rfl, rfl⟩
    rw [feedsFrom_append, feedsFrom, if_pos rfl]
    exact List.mem_append_right _ List.mem_cons_self

theorem pairwise_feedsFrom (offset : Nat) (cs : List Char) :
    (feedsFrom offset cs).Pairwise (· < ·) := by
  induction cs generalizing offset with
  | nil => exact List.Pairwise.nil
  | cons c cs ih =>
    unfold feedsFrom
    split
    · refine List.pairwise_cons.mpr ⟨fun i hi => ?_, ih _⟩
      obtain ⟨before, -, -, rfl⟩ := mem_feedsFrom_iff.mp hi
      have hpos := c.utf8Size_pos
      omega
    · exact ih _

/-- The line feeds before an offset, counted byte by byte. -/
theorem count_feeds (text : String) (stop : Nat) :
    Nat.count (ReadsAt text · ['\n']) stop =
      ((feedsFrom 0 text.toList).filter (· < stop)).length := by
  have hmem : ∀ i, i ∈ feedsFrom 0 text.toList ↔ ReadsAt text i ['\n'] := by
    intro i
    rw [mem_feedsFrom_iff]
    simp [ReadsAt, eq_comm]
  have hnodup := ((pairwise_feedsFrom 0 text.toList).imp fun h => Nat.ne_of_lt h).filter (· < stop)
  rw [Nat.count_eq_card_filter_range, ← List.toFinset_card_of_nodup hnodup]
  congr 1
  ext i
  simp [hmem, and_comm]

end Feeds

theorem LineIndex.pairwise_starts (text : String) :
    (LineIndex.ofText text).starts.Pairwise (· < ·) := by
  refine List.pairwise_cons.mpr ⟨fun start hstart => ?_, List.pairwise_map.mpr ?_⟩
  · obtain ⟨i, -, rfl⟩ := List.mem_map.mp hstart
    exact Nat.succ_pos i
  · exact (pairwise_feedsFrom 0 text.toList).imp fun h => Nat.succ_lt_succ h

/-- There is no cut inside a character. -/
theorem cut?_inside {line cs : List Char} {c : Char} {left : Nat} (hpos : 0 < left)
    (hlt : left < c.utf8Size) : cut? (line ++ c :: cs) (byteLength line + left) = none := by
  cases hcut : cut? (line ++ c :: cs) (byteLength line + left) with
  | none => rfl
  | some p =>
    obtain ⟨heq, hlength⟩ := cut?_eq_some_iff.mp hcut
    rcases List.append_eq_append_iff.mp heq with ⟨more, hp, hmore⟩ | ⟨more, hp, -⟩
    · rw [hp, byteLength_append] at hlength
      cases more with
      | nil => exact absurd hlength (by simpa using hpos.ne')
      | cons d more =>
        obtain ⟨rfl, -⟩ := List.cons.inj hmore
        rw [byteLength_cons] at hlength
        omega
    · rw [hp, byteLength_append] at hlength
      omega

/-- An offset in a text: past the lines `above` and the characters `line` of its own line, and
`left` bytes into what follows, which is at most one character. -/
structure Falls (text : String) (offset : Nat) (above line rest : List Char) (left : Nat) :
    Prop where
  text_eq : text.toList = above ++ line ++ rest
  offset_eq : offset = byteLength (above ++ line) + left
  above_ends : above = [] ∨ ∃ a, above = a ++ ['\n']
  not_mem_line : '\n' ∉ line
  inside : ∀ c, rest.head? = some c → left < c.utf8Size

namespace Falls

variable {text : String} {offset left : Nat} {above line rest before : List Char}

/-- What stands before an offset is the lines above it and the beginning of its own line. -/
theorem of_text_eq (htext : text.toList = before ++ rest)
    (hinside : ∀ c, rest.head? = some c → left < c.utf8Size) :
    Falls text (byteLength before + left) (before.rdropWhile (· != '\n'))
      (before.rtakeWhile (· != '\n')) rest left where
  text_eq := by rwa [List.rdropWhile_append_rtakeWhile]
  offset_eq := by rw [List.rdropWhile_append_rtakeWhile]
  above_ends := by
    by_cases hne : before.rdropWhile (· != '\n') = []
    · exact .inl hne
    · have hlast := List.rdropWhile_last_not _ _ hne
      have hfeed : (before.rdropWhile (· != '\n')).getLast hne = '\n' := by simpa using hlast
      exact .inr ⟨_, hfeed ▸ (List.dropLast_append_getLast hne).symm⟩
  not_mem_line h := absurd (List.mem_rtakeWhile_imp h) (by simp)
  inside := hinside

/-- Every offset is in the text, in front of a character of it or inside it, or past the end. -/
theorem exists_cut (cs : List Char) (offset : Nat) : ∃ before rest left, cs = before ++ rest ∧
    offset = byteLength before + left ∧ ∀ c, rest.head? = some c → left < c.utf8Size := by
  induction cs generalizing offset with
  | nil => exact ⟨[], [], offset, rfl, (Nat.zero_add _).symm, by simp⟩
  | cons c cs ih =>
    by_cases h : offset < c.utf8Size
    · exact ⟨[], c :: cs, offset, rfl, (Nat.zero_add _).symm, by simpa using h⟩
    · obtain ⟨before, rest, left, rfl, hoffset, hinside⟩ := ih (offset - c.utf8Size)
      refine ⟨c :: before, rest, left, rfl, ?_, hinside⟩
      rw [byteLength_cons]
      omega

/-- The column of the offset, counted from 0. -/
def column (line rest : List Char) (left : Nat) : Nat :=
  if rest = [] ∨ left = 0 then line.length else byteLength line + left

section

variable (h : Falls text offset above line rest left)
include h

theorem toList_eq : text.toList = above ++ (line ++ rest) := by
  rw [h.text_eq, List.append_assoc]

theorem feeds_eq : feedsFrom 0 text.toList =
    feedsFrom 0 above ++ feedsFrom (byteLength (above ++ line)) rest := by
  rw [h.toList_eq, feedsFrom_append, feedsFrom_append, feedsFrom_of_not_mem h.not_mem_line,
    List.nil_append, Nat.zero_add, byteLength_append]

/-- The lines start where the lines above do, where the own line does, and behind the line feeds
that follow. -/
theorem starts_eq : ∃ starts, starts.length = above.count '\n' ∧
    (LineIndex.ofText text).starts = starts ++ byteLength above ::
      (feedsFrom (byteLength (above ++ line)) rest).map (· + 1) := by
  rw [LineIndex.ofText, h.feeds_eq, List.map_append]
  rcases h.above_ends with rfl | ⟨a, rfl⟩
  · exact ⟨[], rfl, rfl⟩
  · refine ⟨0 :: (feedsFrom 0 a).map (· + 1), ?_, ?_⟩
    · simp [length_feedsFrom]
    · rw [feedsFrom_append, Nat.zero_add]
      simp [feedsFrom, utf8Size_feed]

/-- The next line starts past the offset. -/
theorem lt_of_mem_feeds {i : Nat} (hi : i ∈ feedsFrom (byteLength (above ++ line)) rest) :
    offset ≤ i := by
  obtain ⟨before, rest', rfl, rfl⟩ := mem_feedsFrom_iff.mp hi
  rw [h.offset_eq]
  cases before with
  | nil =>
    -- A line feed takes one byte, so the offset is not inside it.
    have hleft := h.inside '\n' rfl
    rw [utf8Size_feed] at hleft
    omega
  | cons c before =>
    have hleft := h.inside c rfl
    rw [byteLength_cons]
    omega

theorem isLastReached :
    IsLastReached (LineIndex.ofText text).starts offset (above.count '\n') := by
  obtain ⟨starts, hlength, hstarts⟩ := h.starts_eq
  rw [hstarts, ← hlength]
  refine ⟨⟨byteLength above, by simp, ?_⟩, fun start hstart => ?_⟩
  · rw [h.offset_eq, byteLength_append]
    omega
  · rw [List.getElem?_append_right (Nat.le_add_right _ 1), Nat.add_sub_cancel_left,
      List.getElem?_cons_succ] at hstart
    obtain ⟨i, hi, rfl⟩ := List.mem_map.mp (List.mem_of_getElem? hstart)
    exact Nat.lt_succ_of_le (h.lt_of_mem_feeds hi)

theorem line?_eq : (LineIndex.ofText text).line? offset = some (above.count '\n') := by
  rcases search?_eq_of_isLastReached (LineIndex.pairwise_starts text) (by simp [LineIndex.ofText])
    h.isLastReached with hsearch | hsearch
  · rw [LineIndex.line?, hsearch, Option.bind_some]
  · rw [LineIndex.line?, hsearch, Option.bind_some]
    exact if_pos (Nat.le_add_left _ _)

/-- Up to the offset, or to the end of the text, there are as many bytes behind the start of the
line as the line's beginning has, and `left` more inside a character. -/
theorem stop_eq : min offset text.utf8ByteSize = byteLength above +
    if rest = [] ∨ left = 0 then byteLength line else byteLength line + left := by
  rw [← byteLength_toList, h.toList_eq, h.offset_eq, byteLength_append, byteLength_append,
    byteLength_append]
  cases rest with
  | nil => simp
  | cons c cs =>
    have hleft := h.inside c rfl
    rw [byteLength_cons]
    split
    · next hzero =>
      have hzero : left = 0 := by simpa using hzero
      omega
    · omega

theorem slice?_eq : slice? text (byteLength above) (min offset text.utf8ByteSize) =
    if rest = [] ∨ left = 0 then some line else none := by
  have habove : cut? text.toList (byteLength above) = some (above, line ++ rest) :=
    cut?_eq_some_iff.mpr ⟨h.toList_eq, rfl⟩
  rw [slice?, h.stop_eq, if_pos (Nat.le_add_right _ _), habove, Option.bind_some,
    Nat.add_sub_cancel_left]
  split
  · have hline : cut? (line ++ rest) (byteLength line) = some (line, rest) :=
      cut?_eq_some_iff.mpr ⟨rfl, rfl⟩
    rw [hline, Option.map_some]
  · next hinside =>
    obtain ⟨hrest, hleft⟩ := not_or.mp hinside
    obtain ⟨c, cs, rfl⟩ := List.exists_cons_of_ne_nil hrest
    rw [cut?_inside (Nat.pos_of_ne_zero hleft) (h.inside c rfl), Option.map_none]

/-- No look-up and no difference fails. -/
theorem position?_eq : (LineIndex.ofText text).position? text offset =
    some ⟨above.count '\n' + 1, column line rest left + 1⟩ := by
  obtain ⟨starts, hlength, hstarts⟩ := h.starts_eq
  have hstart : (LineIndex.ofText text).starts[above.count '\n']? = some (byteLength above) := by
    rw [hstarts, ← hlength]
    simp
  have hbytes : difference? (min offset text.utf8ByteSize) (byteLength above) =
      some (if rest = [] ∨ left = 0 then byteLength line else byteLength line + left) := by
    rw [h.stop_eq, difference?, if_pos (Nat.le_add_right _ _), Nat.add_sub_cancel_left]
  have hcolumn : (slice? text (byteLength above) (min offset text.utf8ByteSize)).elim
      (if rest = [] ∨ left = 0 then byteLength line else byteLength line + left) List.length =
        column line rest left := by
    rw [h.slice?_eq, column]
    split <;> rfl
  simp only [LineIndex.position?, h.line?_eq, hstart, hbytes, hcolumn, Option.bind_eq_bind,
    Option.bind_some]

/-- The walk over the text finds the same place. -/
theorem ofOffset_eq : Position.ofOffset text offset =
    ⟨above.count '\n' + 1, column line rest left + 1⟩ := by
  have hlines : Position.ofOffset text offset =
      Position.advance (above.count '\n' + 1) 0 0 (byteLength line + left) (line ++ rest) := by
    rw [Position.ofOffset, h.toList_eq, h.offset_eq, byteLength_append, Nat.add_assoc]
    rcases h.above_ends with rfl | ⟨a, rfl⟩
    · simp
    · rw [List.append_assoc, List.singleton_append, Position.advance_lines]
      simp [Nat.add_comm]
  rw [hlines, Position.advance_line h.not_mem_line, Nat.zero_add, Nat.zero_add, column]
  cases rest with
  | nil => simp [Position.advance]
  | cons c cs =>
    have hinside := h.inside c rfl
    by_cases hleft : left = 0
    · simp [Position.advance, hleft]
    · simp [Position.advance, hleft, hinside]

theorem count_newline : Nat.count (ReadsAt text · ['\n']) (min offset text.utf8ByteSize) =
    above.count '\n' := by
  have hstop := h.stop_eq
  have habove : ∀ i ∈ feedsFrom 0 above, decide (i < min offset text.utf8ByteSize) = true := by
    intro i hi
    obtain ⟨before, rest', rfl, rfl⟩ := mem_feedsFrom_iff.mp hi
    rw [decide_eq_true_eq, hstop, byteLength_append, byteLength_cons, utf8Size_feed]
    omega
  have hrest : ∀ i ∈ feedsFrom (byteLength (above ++ line)) rest,
      ¬ decide (i < min offset text.utf8ByteSize) = true := by
    intro i hi
    have hle := h.lt_of_mem_feeds hi
    rw [decide_eq_true_eq]
    omega
  rw [count_feeds, h.feeds_eq, List.filter_append, List.filter_eq_self.mpr habove,
    List.filter_eq_nil_iff.mpr hrest, List.append_nil, length_feedsFrom]

/-- A walk to the line and the character of a cut leads to the cut. -/
theorem offset?_eq (hleft : left = 0) :
    Position.offset? text.toList (Position.ofOffset text offset) = some offset := by
  rw [h.ofOffset_eq, column, if_pos (.inr hleft), Position.offset?, h.toList_eq, h.offset_eq, hleft,
    byteLength_append, Nat.add_zero]
  have hline : Position.walk? 0 line.length (line ++ rest) = some (byteLength line) :=
    Position.walk?_line h.not_mem_line
  rcases h.above_ends with rfl | ⟨a, rfl⟩
  · simpa using hline
  · rw [List.append_assoc, List.singleton_append, List.count_append, List.count_singleton_self,
      Position.walk?_lines, hline]
    rfl

end

end Falls

namespace LineIndex

variable {text : String} {a b : Markup.Span}

theorem exists_falls (text : String) (offset : Nat) :
    ∃ above line rest left, Falls text offset above line rest left := by
  obtain ⟨before, rest, left, htext, rfl, hinside⟩ := Falls.exists_cut text.toList offset
  exact ⟨_, _, _, _, Falls.of_text_eq htext hinside⟩

/-- A cut of the text falls behind the characters of its line that stand before it. -/
theorem falls_of_cut {before rest : List Char} (htext : text.toList = before ++ rest) :
    Falls text (byteLength before) (before.rdropWhile (· != '\n'))
      (before.rtakeWhile (· != '\n')) rest 0 :=
  Falls.of_text_eq htext fun c _ => c.utf8Size_pos

theorem exists_opens (ha : a ∈ Markup.anchors text ++ Markup.links text) :
    ∃ delimiter, a.Opens delimiter text := by
  rcases List.mem_append.mp ha with ha | ha
  · exact ⟨'*', Markup.opens_of_mem_anchors ha⟩
  · exact ⟨'|', Markup.opens_of_mem_links ha⟩

theorem readsAt_of_opens {delimiter : Char} (h : a.Opens delimiter text) :
    ReadsAt text a.offset [] := by
  obtain ⟨before, rest, htext, hoffset⟩ := h
  exact ⟨before, delimiter :: rest, by simpa using htext, hoffset.symm⟩

theorem offset?_ofOffset {offset : Nat} (h : ReadsAt text offset []) :
    Position.offset? text.toList (.ofOffset text offset) = some offset := by
  obtain ⟨before, rest, htext, rfl⟩ := h
  rw [List.append_nil] at htext
  exact (falls_of_cut htext).offset?_eq rfl

/-- The index finds a place for every offset. Its line counts the line feeds before the offset, its
column the characters of the line before a cut of the text. The places of cuts are in the order of
the cuts, those of markup tell it apart, and each leads back to its cut. -/
theorem places_exact (text : String) :
    (∀ offset, ∃ p, (ofText text).position? text offset = some p ∧
      Position.ofOffset text offset = p ∧
      p.line = 1 + Nat.count (ReadsAt text · ['\n']) (min offset text.utf8ByteSize)) ∧
    (∀ before rest, text.toList = before ++ rest →
      (Position.ofOffset text (byteLength before)).column =
        1 + (before.rtakeWhile (· != '\n')).length) ∧
    (∀ o o', ReadsAt text o [] → ReadsAt text o' [] → o < o' →
      (Position.ofOffset text o).Precedes (.ofOffset text o')) ∧
    (∀ a ∈ Markup.anchors text ++ Markup.links text,
      ∀ b ∈ Markup.anchors text ++ Markup.links text,
        Position.ofOffset text a.offset = .ofOffset text b.offset → a.offset = b.offset) ∧
    ∀ o, ReadsAt text o [] → Position.offset? text.toList (.ofOffset text o) = some o := by
  refine ⟨fun offset => ?_, fun before rest htext => ?_, ?_, fun a ha b hb heq => ?_,
    fun o h => offset?_ofOffset h⟩
  · obtain ⟨above, line, rest, left, h⟩ := exists_falls text offset
    refine ⟨_, h.position?_eq, h.ofOffset_eq, ?_⟩
    rw [h.count_newline, Nat.add_comm]
  · rw [(falls_of_cut htext).ofOffset_eq, Falls.column, if_pos (.inr rfl)]
    exact Nat.add_comm _ _
  · rintro _ _ ⟨before, rest, htext, rfl⟩ ⟨before', rest', htext', rfl⟩ hlt
    rw [List.append_nil] at htext htext'
    rw [Position.ofOffset_byteLength htext, Position.ofOffset_byteLength htext']
    exact Position.precedes_of_byteLength_lt (htext.symm.trans htext') hlt
  · obtain ⟨_, ha⟩ := exists_opens ha
    obtain ⟨_, hb⟩ := exists_opens hb
    have hback := offset?_ofOffset (readsAt_of_opens ha)
    rw [heq, offset?_ofOffset (readsAt_of_opens hb)] at hback
    exact (Option.some.inj hback).symm

/-- A character of two bytes takes one column. -/
theorem place_behind_two_bytes :
    (ofText "é\né*a*").position? "é\né*a*" 5 = some ⟨2, 2⟩ ∧
      Position.Precedes (.ofOffset "é\né*a*" 3) ⟨2, 2⟩ ∧
      Position.offset? "é\né*a*".toList ⟨2, 2⟩ = some 5 := by
  obtain ⟨hfound, -, horder, -, hback⟩ := places_exact "é\né*a*"
  have hplace : Position.ofOffset "é\né*a*" 5 = ⟨2, 2⟩ := by decide +kernel
  have hread : ReadsAt "é\né*a*" 5 [] := by decide +kernel
  obtain ⟨p, hp, heq, -⟩ := hfound 5
  rw [hplace] at heq
  refine ⟨heq ▸ hp, ?_, hplace ▸ hback 5 hread⟩
  exact hplace ▸ horder 3 5 (by decide +kernel) hread (by decide)

end LineIndex

end HelpAudit
