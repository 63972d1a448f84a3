import HelpAudit.Text.Blank
import HelpAudit.Text.Digit
import HelpAudit.Text.Line

/-! Texts taken apart and read back: runs of characters, lines between line feeds, numbers that
were written in digits. -/
namespace HelpAudit.Text

variable {a b : List Char} {ls : List (List Char)}

theorem byteLength_pos {cs : List Char} (h : cs ≠ []) : 0 < byteLength cs := by
  cases cs with
  | nil => exact absurd rfl h
  | cons c cs =>
    rw [byteLength_cons]
    have hc := c.utf8Size_pos
    omega

/-- What stands before and behind a byte offset is settled by the offset. -/
theorem append_inj_of_byteLength {a b p q : List Char} (h : a ++ p = b ++ q)
    (hlength : byteLength a = byteLength b) : a = b ∧ p = q := by
  rcases List.append_eq_append_iff.mp h with ⟨more, rfl, rfl⟩ | ⟨more, rfl, rfl⟩
  · by_cases hne : more = []
    · simp [hne]
    · have hpos := byteLength_pos hne
      rw [byteLength_append] at hlength
      omega
  · by_cases hne : more = []
    · simp [hne]
    · have hpos := byteLength_pos hne
      rw [byteLength_append] at hlength
      omega

/-- The characters before a byte offset and those behind it. There are none inside a character or
past the end. -/
def cut? : List Char → Nat → Option (List Char × List Char)
  | cs, 0 => some ([], cs)
  | [], _ + 1 => none
  | c :: cs, n + 1 =>
    if n + 1 < c.utf8Size then none
    else (cut? cs (n + 1 - c.utf8Size)).map fun (before, rest) => (c :: before, rest)

theorem cut?_eq_some_iff {cs before rest : List Char} {n : Nat} :
    cut? cs n = some (before, rest) ↔ cs = before ++ rest ∧ byteLength before = n := by
  constructor
  · intro h
    induction cs generalizing n before with
    | nil =>
      cases n with
      | zero => cases h; exact ⟨rfl, rfl⟩
      | succ n => cases h
    | cons c cs ih =>
      cases n with
      | zero => cases h; exact ⟨rfl, rfl⟩
      | succ n =>
        unfold cut? at h
        split at h
        · cases h
        · obtain ⟨⟨before, rest⟩, hcut, heq⟩ := Option.map_eq_some_iff.mp h
          cases heq
          obtain ⟨rfl, hlength⟩ := ih hcut
          refine ⟨rfl, ?_⟩
          rw [byteLength_cons, hlength]
          omega
  · rintro ⟨rfl, rfl⟩
    induction before with
    | nil => cases rest <;> rfl
    | cons c before ih =>
      have hpos := c.utf8Size_pos
      obtain ⟨n, hn⟩ : ∃ n, byteLength (c :: before) = n + 1 :=
        Nat.exists_eq_add_one.mpr (byteLength_pos (List.cons_ne_nil _ _))
      rw [byteLength_cons] at hn
      have hrest : n + 1 - c.utf8Size = byteLength before := by omega
      rw [byteLength_cons, hn, List.cons_append, cut?, if_neg (by omega), hrest, ih,
        Option.map_some]

/-- The text reads `part` at the byte offset; an empty part is read between any two characters. -/
def ReadsAt (text : String) (offset : Nat) (part : List Char) : Prop :=
  ∃ before rest, text.toList = before ++ part ++ rest ∧ byteLength before = offset

theorem readsAt_iff_cut? {text : String} {offset : Nat} {part : List Char} :
    ReadsAt text offset part ↔ ∃ p ∈ cut? text.toList offset, part <+: p.2 := by
  constructor
  · rintro ⟨before, rest, htext, hlength⟩
    rw [List.append_assoc] at htext
    exact ⟨(before, part ++ rest), cut?_eq_some_iff.mpr ⟨htext, hlength⟩, List.prefix_append _ _⟩
  · rintro ⟨⟨before, behind⟩, hcut, rest, hbehind⟩
    obtain ⟨htext, hlength⟩ := cut?_eq_some_iff.mp hcut
    refine ⟨before, rest, ?_, hlength⟩
    rw [htext, List.append_assoc]
    exact congrArg (before ++ ·) hbehind.symm

instance (text : String) (offset : Nat) (part : List Char) :
    Decidable (ReadsAt text offset part) :=
  decidable_of_iff _ readsAt_iff_cut?.symm

theorem byteLength_toList (s : String) : byteLength s.toList = s.utf8ByteSize := by
  have hlist : ∀ cs : List Char, (String.ofList cs).utf8ByteSize = byteLength cs := by
    intro cs
    induction cs with
    | nil => rfl
    | cons c cs ih =>
      rw [← List.singleton_append, String.ofList_append, String.utf8ByteSize_append, ih,
        ← String.singleton_eq_ofList, String.utf8ByteSize_singleton]
      rfl
  rw [← hlist, String.ofList_toList]

/-- A run ends before the first character that it may not hold. -/
theorem takeWhile_append_of_head? {p : Char → Bool} {body rest : List Char}
    (hb : ∀ c ∈ body, p c = true) (hr : ∀ c, rest.head? = some c → p c = false) :
    (body ++ rest).takeWhile p = body ∧ (body ++ rest).dropWhile p = rest := by
  rw [List.takeWhile_append_of_pos hb, List.dropWhile_append_of_pos hb]
  cases rest with
  | nil => simp
  | cons c rest =>
    have hc := hr c rfl
    simp [hc]

/-- What a run takes and what it leaves are known by the character at which it ends. -/
theorem takeWhile_dropWhile_eq_iff {p : Char → Bool} {cs body rest : List Char} :
    cs.takeWhile p = body ∧ cs.dropWhile p = rest ↔
      cs = body ++ rest ∧ (∀ c ∈ body, p c = true) ∧ ∀ c, rest.head? = some c → p c = false := by
  constructor
  · rintro ⟨rfl, rfl⟩
    refine ⟨List.takeWhile_append_dropWhile.symm, List.all_eq_true.mp List.all_takeWhile, ?_⟩
    intro c hc
    have hend := List.head?_dropWhile_not p cs
    rwa [hc] at hend
  · rintro ⟨rfl, hbody, hrest⟩
    exact takeWhile_append_of_head? hbody hrest

/-- A text is one line, or a line with more lines below it. -/
@[elab_as_elim]
theorem line_induction {motive : List Char → Prop}
    (last : ∀ line, '\n' ∉ line → motive line)
    (more : ∀ line rest, '\n' ∉ line → motive rest → motive (line ++ '\n' :: rest))
    (cs : List Char) : motive cs := by
  by_cases h : '\n' ∈ cs
  · obtain ⟨line, rest, hcs, hline⟩ := List.eq_append_cons_of_mem h
    have hshorter : rest.length < cs.length := by
      rw [hcs, List.length_append, List.length_cons]
      omega
    rw [hcs]
    exact more line rest hline (line_induction last more rest)
  · exact last cs h
  termination_by cs.length

/-- A text without the separator is one piece. -/
theorem splitOnP_of_not_mem {separator : Char} {cs : List Char} (h : separator ∉ cs) :
    cs.splitOnP (· == separator) = [cs] :=
  List.splitOnP_eq_singleton fun _ hc => beq_false_of_ne fun heq => h (heq ▸ hc)

theorem pieces_append_newline (s t : List Char) : pieces (s ++ '\n' :: t) = pieces s ++ pieces t :=
  List.splitOnP_append_cons s t rfl

theorem pieces_of_not_mem {line : List Char} (h : '\n' ∉ line) : pieces line = [line] :=
  splitOnP_of_not_mem h

theorem ne_newline_of_not_mem {line : List Char} (h : '\n' ∉ line) :
    ∀ c ∈ line, (c != '\n') = true :=
  fun _ hc => bne_iff_ne.mpr fun heq => h (heq ▸ hc)

/-- The first line ends before the first line feed. -/
theorem getElem?_zero_pieces (cs : List Char) :
    (pieces cs)[0]? = some (cs.takeWhile (· != '\n')) := by
  induction cs using line_induction with
  | last line hline =>
    have hall : (line ++ []).takeWhile (· != '\n') = line := by
      rw [List.takeWhile_append_of_pos (ne_newline_of_not_mem hline), List.takeWhile_nil,
        List.append_nil]
    rw [List.append_nil] at hall
    rw [pieces_of_not_mem hline, hall]
    rfl
  | more line rest hline _ =>
    rw [pieces_append_newline, pieces_of_not_mem hline,
      List.takeWhile_append_of_pos (ne_newline_of_not_mem hline),
      List.takeWhile_cons_of_neg (by simp), List.append_nil]
    rfl

theorem length_pieces (cs : List Char) : (pieces cs).length = cs.count '\n' + 1 := by
  induction cs using line_induction with
  | last line hline => rw [pieces_of_not_mem hline, List.count_eq_zero_of_not_mem hline]; rfl
  | more line rest hline ih =>
    rw [pieces_append_newline, pieces_of_not_mem hline, List.length_append, ih, List.count_append,
      List.count_cons_self, List.count_eq_zero_of_not_mem hline, List.length_singleton]
    omega

/-- Texts that are joined by line feeds fall into the lines of each. -/
theorem pieces_intercalate_flatMap (hne : ls ≠ []) :
    pieces (['\n'].intercalate ls) = ls.flatMap pieces := by
  induction ls with
  | nil => exact absurd rfl hne
  | cons l ls ih =>
    cases ls with
    | nil => simp
    | cons m ls =>
      rw [List.intercalate_cons_cons, List.append_assoc, List.singleton_append,
        pieces_append_newline, ih (by simp), ← List.flatMap_cons]

/-- A beginning without line feeds stands in front of the first line. -/
theorem pieces_append (ha : '\n' ∉ a) {first : List Char} (h : pieces b = first :: ls) :
    pieces (a ++ b) = (a ++ first) :: ls := by
  induction b using line_induction with
  | last line hline =>
    rw [pieces_of_not_mem hline] at h
    obtain ⟨rfl, rfl⟩ := List.cons.inj h
    exact pieces_of_not_mem (by simp [ha, hline])
  | more line rest hline _ =>
    rw [pieces_append_newline, pieces_of_not_mem hline, List.singleton_append] at h
    obtain ⟨rfl, rfl⟩ := List.cons.inj h
    rw [← List.append_assoc, pieces_append_newline, pieces_of_not_mem (by simp [ha, hline]),
      List.singleton_append]

/-- Of texts that are joined, the last one stays as it is. -/
theorem lines_intercalate_flatMap (hb : '\n' ∉ b) (hne : b ≠ []) :
    lines (['\n'].intercalate (ls ++ [b])) = (ls.flatMap pieces).map dropReturn ++ [b] := by
  have hempty : b.isEmpty = false := by simpa using hne
  unfold lines
  rw [pieces_intercalate_flatMap (by simp), List.flatMap_append, List.flatMap_singleton,
    pieces_of_not_mem hb]
  simp [hempty]

theorem lines_intercalate (h : ∀ l ∈ ls, '\n' ∉ l) (hb : '\n' ∉ b) (hne : b ≠ []) :
    lines (['\n'].intercalate (ls ++ [b])) = ls.map dropReturn ++ [b] := by
  have hpieces : ls.map pieces = ls.map fun l => [l] :=
    List.map_congr_left fun l hl => pieces_of_not_mem (h l hl)
  rw [lines_intercalate_flatMap hb hne, List.flatMap_def, hpieces, ← List.flatMap_def,
    List.flatMap_singleton']

theorem dropReturn_of_getLast?_ne (h : a.getLast? ≠ some '\r') : dropReturn a = a := if_neg h

theorem dropReturn_append (a : List Char) (h : b ≠ []) :
    dropReturn (a ++ b) = a ++ dropReturn b := by
  have hlast : (a ++ b).getLast? = b.getLast? := by
    rw [List.getLast?_append, List.getLast?_eq_some_getLast h, Option.some_or]
  unfold dropReturn
  rw [hlast, List.dropLast_append_of_ne_nil h]
  split <;> rfl

theorem digitValue?_of_isDigit {c : Char} (h : c.isDigit = true) :
    digitValue? c = some (c.toNat - '0'.toNat) := if_pos h

theorem foldl_digits {ds : List Char} (h : ∀ c ∈ ds, c.isDigit = true) (n : Nat) :
    ds.foldl (fun n? d => n?.bind fun n => (digitValue? d).map (n * 10 + ·)) (some n) =
      some (Nat.ofDigitChars 10 ds n) := by
  induction ds generalizing n with
  | nil => rfl
  | cons d ds ih =>
    have hd := digitValue?_of_isDigit (h d List.mem_cons_self)
    rw [List.foldl_cons, Option.bind_some, hd, Option.map_some,
      ih fun c hc => h c (List.mem_cons_of_mem _ hc), Nat.mul_comm]
    rfl

theorem isDigit_of_mem_toDigits {n : Nat} {c : Char} (h : c ∈ Nat.toDigits 10 n) :
    c.isDigit = true := Nat.isDigit_of_mem_toDigits (by decide) (by decide) h

/-- A number is read as it was written. -/
theorem natural?_toDigits (n : Nat) : natural? (Nat.toDigits 10 n) = some n := by
  have hvalue := foldl_digits (fun c hc => isDigit_of_mem_toDigits (n := n) hc) 0
  rw [Nat.ofDigitChars_toDigits (by decide) (by decide)] at hvalue
  obtain ⟨d, ds, hds⟩ := List.exists_cons_of_ne_nil (@Nat.toDigits_ne_nil n 10)
  rw [hds] at hvalue ⊢
  exact hvalue

theorem toList_toString (n : Nat) : (toString n).toList = Nat.toDigits 10 n := by
  rw [Nat.toString_eq_repr, Nat.toList_repr]

end HelpAudit.Text
