import HelpAudit.Proofs.Json.Reader
import HelpAudit.Proofs.Text
import Mathlib.Data.List.Forall2

/-!
Values read back from what is printed of them. What a value is printed as is read as one written
value, at every level of indentation; of an array and an object this follows from their entries.
-/
namespace HelpAudit.Json

open Written

/-- Blank space between the words of a document. -/
def IsSpacing (cs : List Char) : Prop := ∀ c ∈ cs, isSpace c = true

/-- No number in front of the text goes on in it. -/
def EndsNumber (rest : List Char) : Prop :=
  ∀ c, rest.head? = some c → c.isDigit = false ∧ c ∉ ['.', 'e', 'E']

theorem endsNumber_cons {c : Char} (hdigit : c.isDigit = false) (hc : c ∉ ['.', 'e', 'E'])
    (rest : List Char) : EndsNumber (c :: rest) := by
  rintro _ ⟨⟩
  exact ⟨hdigit, hc⟩

theorem endsNumber_spacing {space rest : List Char} (hspace : IsSpacing space)
    (hrest : EndsNumber rest) : EndsNumber (space ++ rest) := by
  cases space with
  | nil => exact hrest
  | cons c space =>
    have hc := hspace c List.mem_cons_self
    simp only [isSpace, Bool.or_eq_true, beq_iff_eq] at hc
    rcases hc with ((rfl | rfl) | rfl) | rfl <;> exact endsNumber_cons rfl (by decide) _

theorem skipSpace_append {space : List Char} (h : IsSpacing space) (cs : List Char) :
    skipSpace (space ++ cs) = skipSpace cs := List.dropWhile_append_of_pos h

theorem skipSpace_eq_nil {space : List Char} (h : IsSpacing space) : skipSpace space = [] :=
  List.dropWhile_eq_nil_iff.mpr h

/-! Spacing in front of a value or of the entries of one is passed over. -/

theorem read?_congr {cs ds : List Char} (h : skipSpace cs = skipSpace ds) (fuel : Nat) :
    read? fuel cs = read? fuel ds := by
  cases fuel with
  | zero => rw [read?, read?]
  | succ fuel => rw [read?, read?, h]

theorem read?_spacing {space : List Char} (h : IsSpacing space) (fuel : Nat) (cs : List Char) :
    read? fuel (space ++ cs) = read? fuel cs := read?_congr (skipSpace_append h cs) fuel

theorem readItems?_skipSpace (fuel : Nat) (cs : List Char) :
    readItems? fuel (skipSpace cs) = readItems? fuel cs := by
  cases fuel with
  | zero => rw [readItems?, readItems?]
  | succ fuel => rw [readItems?, readItems?, read?_congr (skipSpace_skipSpace cs)]

theorem readMembers?_skipSpace (fuel : Nat) (cs : List Char) :
    readMembers? fuel (skipSpace cs) = readMembers? fuel cs := by
  cases fuel with
  | zero => rw [readMembers?, readMembers?]
  | succ fuel => rw [readMembers?, readMembers?, skipSpace_skipSpace]

section Number

theorem exists_toDigits (n : Nat) : ∃ d ds, Nat.toDigits 10 n = d :: ds ∧ d.isDigit = true := by
  obtain ⟨d, ds, hds⟩ := List.exists_cons_of_ne_nil (@Nat.toDigits_ne_nil n 10)
  exact ⟨d, ds, hds, Text.isDigit_of_mem_toDigits (n := n) (by simp [hds])⟩

/-- Only zero is written with a zero in front. -/
theorem head?_toDigits {n : Nat} (h : 0 < n) : (Nat.toDigits 10 n).head? ≠ some '0' := by
  induction n using Nat.strongRecOn with
  | ind n ih =>
    rw [Nat.toDigits_eq_if (by decide)]
    split
    · next hlt =>
      have hdigit : ∀ k < 10, 0 < k → Nat.digitChar k ≠ '0' := by decide
      simpa using hdigit n hlt h
    · next hle =>
      have hfront := ih (n / 10) (by omega) (by omega)
      obtain ⟨d, ds, hds, -⟩ := exists_toDigits (n / 10)
      rw [hds] at hfront ⊢
      exact hfront

variable {rest : List Char} (hrest : EndsNumber rest)
include hrest

theorem whole?_toDigits (n : Nat) :
    whole? (Nat.toDigits 10 n ++ rest) = some (Nat.toDigits 10 n, rest) := by
  obtain ⟨htake, hdrop⟩ := Text.takeWhile_append_of_head?
    (fun c hc => Text.isDigit_of_mem_toDigits (n := n) hc) fun c hc => (hrest c hc).1
  have hdigits : digits? (Nat.toDigits 10 n ++ rest) = some (Nat.toDigits 10 n, rest) := by
    simp [digits?, digits, htake, hdrop]
  have hsound : ¬((Nat.toDigits 10 n).head? = some '0' ∧ (Nat.toDigits 10 n).length ≠ 1) := by
    rintro ⟨hzero, hlength⟩
    cases n with
    | zero => exact hlength rfl
    | succ n => exact head?_toDigits n.succ_pos hzero
  rw [whole?, hdigits, Option.bind_eq_bind, Option.bind_some]
  exact if_neg hsound

theorem fraction?_of_endsNumber : fraction? rest = some (none, rest) := by
  unfold fraction?
  split
  · next cs => exact absurd (by decide) (hrest '.' rfl).2
  · rfl

theorem exponent?_of_endsNumber : exponent? rest = some (none, rest) := by
  unfold exponent?
  split
  · next c cs =>
    have hc := (hrest c rfl).2
    simp only [List.mem_cons, List.not_mem_nil, or_false, not_or] at hc
    simp [hc]
  · rfl

theorem number?_toDigits (n : Nat) : number? (Nat.toDigits 10 n ++ rest) =
    some (⟨false, Nat.toDigits 10 n, none, none⟩, rest) := by
  have hwhole := whole?_toDigits hrest n
  obtain ⟨d, ds, hds, hd⟩ := exists_toDigits n
  have hsign : d ≠ '-' := by
    rintro rfl
    cases hd
  rw [hds, List.cons_append] at hwhole ⊢
  simp [number?, hsign, hwhole, fraction?_of_endsNumber hrest, exponent?_of_endsNumber hrest]

theorem read?_toDigits (fuel n : Nat) : read? (fuel + 1) (Nat.toDigits 10 n ++ rest) =
    some (.number ⟨false, Nat.toDigits 10 n, none, none⟩, rest) := by
  have hnumber := number?_toDigits hrest n
  obtain ⟨d, ds, hds, hd⟩ := exists_toDigits n
  have hspace : isSpace d = false := by
    by_contra h
    simp only [isSpace, Bool.not_eq_false, Bool.or_eq_true, beq_iff_eq] at h
    rcases h with ((rfl | rfl) | rfl) | rfl <;> cases hd
  rw [hds, List.cons_append] at hnumber ⊢
  rw [read?, skipSpace_cons hspace]
  split
  case h_7 => rw [hnumber, Option.map_some]
  all_goals
    next heq =>
    obtain rfl := (List.cons.inj heq).1
    cases hd

end Number

section Entries

/-! An array and an object are read alike: entry after entry up to the closing bracket. -/

/-- A reader of entries takes this text as one of them, before a comma and as the last one. -/
structure IsEntry {α : Type} (read : Nat → List Char → Option (List α × List Char))
    (closing : Char) (text : String) (x : α) : Prop where
  next : ∀ {fuel : Nat} {space rest after : List Char} {xs : List α}, IsSpacing space →
    text.toList.length ≤ fuel → read fuel rest = some (xs, after) →
      read (fuel + 1) (space ++ (text.toList ++ ',' :: rest)) = some (x :: xs, after)
  last : ∀ {fuel : Nat} {space more : List Char} (after : List Char), IsSpacing space →
    IsSpacing more → text.toList.length ≤ fuel →
      read (fuel + 1) (space ++ (text.toList ++ (more ++ closing :: after))) = some ([x], after)

/-- Entries on lines of their own, behind the opening bracket and its line feed. -/
def entryLines (level : Nat) (entries : List String) : List Char :=
  [',', '\n'].intercalate (entries.map fun e => (indent (level + 1)).toList ++ e.toList)

theorem isSpacing_indent (level : Nat) : IsSpacing (indent level).toList := by
  intro c hc
  rw [indent, String.toList_ofList] at hc
  rw [List.eq_of_mem_replicate hc]
  rfl

theorem isSpacing_newline {cs : List Char} (h : IsSpacing cs) : IsSpacing ('\n' :: cs) :=
  List.forall_mem_cons.mpr ⟨rfl, h⟩

theorem isSpacing_append {cs ds : List Char} (hc : IsSpacing cs) (hd : IsSpacing ds) :
    IsSpacing (cs ++ ds) := List.forall_mem_append.mpr ⟨hc, hd⟩

/-- Entries that are printed line by line are read one by one. -/
theorem read_entryLines {α : Type} {read : Nat → List Char → Option (List α × List Char)}
    {closing : Char} {entries : List String} {xs : List α}
    (h : List.Forall₂ (IsEntry read closing) entries xs) (hne : entries ≠ []) {level fuel : Nat}
    (hfuel : (entryLines level entries).length < fuel) {space more : List Char}
    (hspace : IsSpacing space) (hmore : IsSpacing more) (after : List Char) :
    read fuel (space ++ (entryLines level entries ++ (more ++ closing :: after))) =
      some (xs, after) := by
  have hindent := isSpacing_indent (level + 1)
  induction h generalizing fuel space with
  | nil => exact absurd rfl hne
  | @cons e x es xs he hes ih =>
    obtain ⟨fuel, rfl⟩ := Nat.exists_eq_add_one_of_ne_zero (Nat.ne_zero_of_lt hfuel)
    cases hes with
    | nil =>
      have hlines : entryLines level [e] = (indent (level + 1)).toList ++ e.toList := by
        simp [entryLines]
      rw [hlines, List.length_append] at hfuel
      rw [hlines, List.append_assoc, ← List.append_assoc space]
      exact he.last after (isSpacing_append hspace hindent) hmore (by omega)
    | @cons e' x' es' xs' he' hes' =>
      have hlines : entryLines level (e :: e' :: es') = (indent (level + 1)).toList ++
          (e.toList ++ ',' :: (['\n'] ++ entryLines level (e' :: es'))) := by
        simp [entryLines, List.intercalate_cons_cons]
      rw [hlines] at hfuel ⊢
      simp only [List.length_append, List.length_cons] at hfuel
      -- The entry took one unit of fuel, and it has a comma and a line feed behind it.
      have hroom : (entryLines level (e' :: es')).length < fuel := by omega
      have hrest := ih (List.cons_ne_nil _ _) hroom (isSpacing_newline (List.forall_mem_nil _))
      have hread := he.next (isSpacing_append hspace hindent) (by omega) hrest
      simpa only [List.append_assoc, List.cons_append, List.nil_append] using hread

theorem toList_block {entries : List String} (hne : entries ≠ []) (level : Nat)
    (opening closing : String) : (block level opening closing entries).toList =
      opening.toList ++ (['\n'] ++ (entryLines level entries ++
        ('\n' :: (indent level).toList ++ closing.toList))) := by
  have hnil : entries.isEmpty = false := by simpa using hne
  have hline : "\n".toList = ['\n'] := rfl
  have hcomma : ",\n".toList = [',', '\n'] := rfl
  rw [block, hnil, if_neg Bool.false_ne_true]
  simp [String.toList_intercalate, entryLines, hline, hcomma, Function.comp_def]

theorem toList_block_nil (level : Nat) (opening closing : String) :
    (block level opening closing []).toList = opening.toList ++ closing.toList := by
  rw [block, List.isEmpty_nil, if_pos rfl, String.toList_append]

/-- What stands behind the opening bracket reads as the entries. -/
theorem exists_entries {α : Type} {read : Nat → List Char → Option (List α × List Char)}
    {o c : Char} {entries : List String} {xs : List α}
    (h : List.Forall₂ (IsEntry read c) entries xs) (hne : entries ≠ []) {level fuel : Nat}
    {opening closing : String} (hopening : opening.toList = [o]) (hclosing : closing.toList = [c])
    (hfuel : (block level opening closing entries).toList.length ≤ fuel) (rest : List Char) :
    ∃ room cs, fuel = room + 1 ∧ (block level opening closing entries).toList ++ rest = o :: cs ∧
      read room cs = some (xs, rest) := by
  rw [toList_block hne, hopening, hclosing] at hfuel ⊢
  simp only [List.length_append, List.length_cons] at hfuel
  obtain ⟨room, rfl⟩ : ∃ room, fuel = room + 1 := Nat.exists_eq_add_one.mpr (by omega)
  have hroom : (entryLines level entries).length < room := by omega
  have hread := read_entryLines h hne hroom (isSpacing_newline (List.forall_mem_nil _))
    (isSpacing_newline (isSpacing_indent level)) rest
  refine ⟨room, _, rfl, ?_, hread⟩
  simp

end Entries

theorem prettyItems_eq_map (level : Nat) (items : List Json) :
    prettyItems level items = items.map (prettyAt level) := by
  induction items with
  | nil => rfl
  | cons v vs ih => rw [prettyItems, ih, List.map_cons]

theorem prettyMembers_eq_map (level : Nat) (members : List (String × Json)) :
    prettyMembers level members =
      members.map fun m => stringText m.1 ++ ": " ++ prettyAt level m.2 := by
  induction members with
  | nil => rfl
  | cons m ms ih => rw [prettyMembers, ih, List.map_cons]

/-- No value starts with a closing bracket. -/
theorem read?_closing {c : Char} (hc : c = ']' ∨ c = '\x7d') (fuel : Nat) {cs rest : List Char}
    (h : skipSpace cs = c :: rest) : read? fuel cs = none := by
  cases fuel with
  | zero => rw [read?]
  | succ fuel =>
    rw [read?, h]
    rcases hc with rfl | rfl <;> rfl

theorem read?_bracket {fuel : Nat} {cs rest : List Char} {ws : List Written}
    (h : readItems? fuel cs = some (ws, rest)) :
    read? (fuel + 1) ('[' :: cs) = some (.array ws, rest) := by
  have hopen : ∀ r, skipSpace cs ≠ ']' :: r := by
    intro r hclosing
    cases fuel with
    | zero => cases h
    | succ fuel =>
      rw [readItems?, read?_closing (.inl rfl) fuel hclosing] at h
      cases h
  -- By `hopen` the reader does not take the array for an empty one.
  rw [read?, skipSpace_cons rfl]
  simp [readItems?_skipSpace, h]

theorem read?_brace {fuel : Nat} {cs rest : List Char} {ms : List (Option String × Written)}
    (h : readMembers? fuel cs = some (ms, rest)) :
    read? (fuel + 1) ('\x7b' :: cs) = some (.object ms, rest) := by
  have hopen : ∀ r, skipSpace cs ≠ '\x7d' :: r := by
    intro r hclosing
    cases fuel with
    | zero => cases h
    | succ fuel =>
      rw [readMembers?, hclosing] at h
      cases h
  rw [read?, skipSpace_cons rfl]
  simp [readMembers?_skipSpace, h]

/-- A name and a colon are read in front of the value of a member. -/
theorem readMembers?_named {fuel : Nat} {space : List Char} (h : IsSpacing space)
    (name value : String) (cs : List Char) :
    readMembers? (fuel + 1) (space ++ ((stringText name ++ ": " ++ value).toList ++ cs)) =
      (read? fuel (value.toList ++ cs)).bind fun x => match skipSpace x.2 with
        | ',' :: rest => (readMembers? fuel rest).bind fun y => some ((some name, x.1) :: y.1, y.2)
        | '\x7d' :: rest => some ([(some name, x.1)], rest)
        | _ => none := by
  have htext : (stringText name ++ ": " ++ value).toList ++ cs = '"' ::
      (name.toList.flatMap escapeChar ++ '"' :: ':' :: ([' '] ++ (value.toList ++ cs))) := by
    have hcolon : ": ".toList = [':', ' '] := rfl
    simp [toList_stringText, hcolon]
  have hblank : IsSpacing [' '] := List.forall_mem_singleton.mpr rfl
  rw [readMembers?, skipSpace_append h, htext, skipSpace_cons rfl]
  simp only [string?_stringText, Option.bind_eq_bind, Option.bind_some]
  rw [skipSpace_cons rfl]
  simp only [read?_spacing hblank]
  rfl

/-- A value is printed as what reads as `w`, at every level of indentation. As much fuel as the text
has characters is enough. -/
def Reads (v : Json) (w : Written) : Prop :=
  ∀ {level fuel : Nat} {rest : List Char}, EndsNumber rest →
    (prettyAt level v).toList.length ≤ fuel →
      read? fuel ((prettyAt level v).toList ++ rest) = some (w, rest)

namespace Reads

variable {v : Json} {w : Written} {level : Nat}

theorem string (s : String) : Reads (.string s) (.string (some s)) := by
  intro level fuel rest _ hfuel
  rw [prettyAt] at hfuel ⊢
  rw [toList_stringText, List.length_cons] at hfuel
  obtain ⟨fuel, rfl⟩ := Nat.exists_eq_add_one_of_ne_zero (Nat.ne_zero_of_lt hfuel)
  exact read?_stringText fuel s rest

theorem natural (n : Nat) :
    Reads (.ofNat n) (.number ⟨false, Nat.toDigits 10 n, none, none⟩) := by
  intro level fuel rest hrest hfuel
  rw [ofNat, prettyAt, Number.text, Text.toList_toString] at hfuel ⊢
  have hlength := List.length_pos_of_ne_nil (@Nat.toDigits_ne_nil n 10)
  obtain ⟨fuel, rfl⟩ := Nat.exists_eq_add_one_of_ne_zero (n := fuel) (by omega)
  exact read?_toDigits hrest fuel n

theorem isEntry_item (h : Reads v w) : IsEntry readItems? ']' (prettyAt level v) w where
  next {fuel space rest after ws} hspace hfuel hrest := by
    have hvalue := h (endsNumber_cons (c := ',') rfl (by decide) rest) hfuel
    have hcomma := @skipSpace_cons ',' rfl rest
    rw [readItems?, read?_spacing hspace, hvalue]
    simp [hcomma, hrest]
  last {fuel space more} after hspace hmore hfuel := by
    have hbracket := @skipSpace_cons ']' rfl after
    have hends := endsNumber_spacing hmore (endsNumber_cons (c := ']') rfl (by decide) after)
    rw [readItems?, read?_spacing hspace, h hends hfuel]
    simp [skipSpace_append hmore, hbracket]

theorem isEntry_member (h : Reads v w) (name : String) : IsEntry readMembers? '\x7d'
    (stringText name ++ ": " ++ prettyAt level v) (some name, w) where
  next {fuel space rest after ws} hspace hfuel hrest := by
    rw [String.toList_append, List.length_append] at hfuel
    have hcomma := @skipSpace_cons ',' rfl rest
    rw [readMembers?_named hspace, h (endsNumber_cons rfl (by decide) rest) (by omega)]
    simp [hcomma, hrest]
  last {fuel space more} after hspace hmore hfuel := by
    rw [String.toList_append, List.length_append] at hfuel
    have hbracket := @skipSpace_cons '\x7d' rfl after
    have hends := endsNumber_spacing hmore (endsNumber_cons (c := '\x7d') rfl (by decide) after)
    rw [readMembers?_named hspace, h hends (by omega)]
    simp [skipSpace_append hmore, hbracket]

theorem array {items : List Json} {ws : List Written} (h : List.Forall₂ Reads items ws) :
    Reads (.array items) (.array ws) := by
  intro level fuel rest _ hfuel
  rw [prettyAt, prettyItems_eq_map] at hfuel ⊢
  have hentries : List.Forall₂ (IsEntry readItems? ']') (items.map (prettyAt (level + 1))) ws :=
    List.forall₂_map_left_iff.mpr (h.imp fun _ _ hvalue => isEntry_item hvalue)
  cases h with
  | nil =>
    have hbracket := @skipSpace_cons ']' rfl rest
    rw [List.map_nil, toList_block_nil] at hfuel ⊢
    have hroom : 0 < fuel := Nat.lt_of_lt_of_le (by simp) hfuel
    obtain ⟨fuel, rfl⟩ := Nat.exists_eq_add_one.mpr hroom
    change read? (fuel + 1) ('[' :: ']' :: rest) = _
    rw [read?, skipSpace_cons rfl]
    simp [hbracket]
  | cons hvalue hvalues =>
    obtain ⟨fuel, cs, rfl, htext, hitems⟩ :=
      exists_entries (o := '[') hentries (by simp) rfl rfl hfuel rest
    rw [htext, read?_bracket hitems]

theorem object {members : List (String × Json)} {ms : List (Option String × Written)}
    (h : List.Forall₂ (fun m m' => m'.1 = some m.1 ∧ Reads m.2 m'.2) members ms) :
    Reads (.object members) (.object ms) := by
  intro level fuel rest _ hfuel
  rw [prettyAt, prettyMembers_eq_map] at hfuel ⊢
  have hentries : List.Forall₂ (IsEntry readMembers? '\x7d') (members.map fun m =>
      stringText m.1 ++ ": " ++ prettyAt (level + 1) m.2) ms := by
    refine List.forall₂_map_left_iff.mpr (h.imp ?_)
    rintro m ⟨_, w⟩ ⟨rfl, hvalue⟩
    exact isEntry_member hvalue m.1
  cases h with
  | nil =>
    have hbrace := @skipSpace_cons '\x7d' rfl rest
    rw [List.map_nil, toList_block_nil] at hfuel ⊢
    have hroom : 0 < fuel := Nat.lt_of_lt_of_le (by simp) hfuel
    obtain ⟨fuel, rfl⟩ := Nat.exists_eq_add_one.mpr hroom
    change read? (fuel + 1) ('\x7b' :: '\x7d' :: rest) = _
    rw [read?, skipSpace_cons rfl]
    simp [hbrace]
  | cons hmember hmembers =>
    obtain ⟨fuel, cs, rfl, htext, hmembers⟩ :=
      exists_entries (o := '\x7b') hentries (by simp) rfl rfl hfuel rest
    rw [htext, read?_brace hmembers]

/-- A document that holds a printed value and spacing is read as the value. -/
theorem parse?_eq (h : Reads v w) {text : String} {space : List Char} (hspace : IsSpacing space)
    (htext : text.toList = v.pretty.toList ++ space) : Written.parse? text = some w := by
  have hends : EndsNumber space := by
    have hnil : EndsNumber [] := by rintro _ ⟨⟩
    rw [← List.append_nil space]
    exact endsNumber_spacing hspace hnil
  refine parse?_eq_some_iff.mpr ⟨space, ?_, skipSpace_eq_nil hspace⟩
  rw [htext]
  refine h hends ?_
  rw [List.length_append, pretty]
  omega

end Reads

end HelpAudit.Json
