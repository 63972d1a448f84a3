import HelpAudit.Header
import HelpAudit.Proofs.Text
import Mathlib.Data.List.Basic

/-!
The grammar of header lines. A line is a header just when it is the sigil, attributes with white
space before each, and white space, with line ends behind; the last title and the last date count.
A search that may start anywhere in the written attributes finds the same ones, so what looks like
an attribute within a value, or from one value to the next, is never taken for one.
-/
namespace HelpAudit.Header

open Text

/-- A key is a letter or an underscore, then letters, digits and underscores; a value has no
quote. -/
structure Attribute.IsProper (a : Attribute) : Prop where
  key : ∃ c cs, a.key = c :: cs ∧ isKeyStart c = true ∧ ∀ d ∈ cs, isKeyChar d = true
  value : '"' ∉ a.value

def Attribute.text (a : Attribute) : List Char := a.key ++ '=' :: '"' :: a.value ++ ['"']

/-- The text has the attributes written one after another, each behind white space. -/
inductive Writes : List Char → List Attribute → Prop where
  | nil : Writes [] []
  | cons {space rest : List Char} {a : Attribute} {as : List Attribute} (hne : space ≠ [])
      (hspace : allBlank space = true) (ha : a.IsProper) (hrest : Writes rest as) :
      Writes (space ++ (a.text ++ rest)) (a :: as)

/-- What a line is when the carriage returns and line feeds at its end are removed. -/
def IsBody (line body : List Char) : Prop :=
  ∃ lineEnd, line = body ++ lineEnd ∧ (∀ c ∈ lineEnd, c = '\r' ∨ c = '\n') ∧
    ∀ c ∈ body.getLast?, ¬(c = '\r' ∨ c = '\n')

/-- The line is a sigil, `pairs` and white space, and the attributes are written in `pairs`. -/
def Reads (line pairs : List Char) (attributes : List Attribute) : Prop :=
  Writes pairs attributes ∧
    ∃ space, allBlank space = true ∧ IsBody line ("%hyperhelp".toList ++ pairs ++ space)

/-- The value of the last attribute that has the key. -/
def IsLastValue (attributes : List Attribute) (key value : List Char) : Prop :=
  ∃ before after, attributes = before ++ ⟨key, value⟩ :: after ∧ ∀ a ∈ after, a.key ≠ key

/-- All that a search for attributes finds: the first one, wherever it starts, and then what is
found behind it. -/
def found (cs : List Char) : List Attribute :=
  match _h : attribute? cs with
  | some (a, rest) => a :: found rest
  | none =>
    match cs with
    | [] => []
    | _ :: rest => found rest
  termination_by cs.length
  decreasing_by
    · exact attribute?_shorter _h
    · simp

variable {a : Attribute} {as attributes : List Attribute} {cs rest pairs : List Char} {c : Char}

theorem isKeyChar_of_isKeyStart (h : isKeyStart c = true) : isKeyChar c = true := by
  unfold isKeyStart at h
  unfold isKeyChar Char.isAlphanum
  rcases Bool.or_eq_true_iff.mp h with h | h <;> simp [h]

/-- No key starts with white space. -/
theorem isKeyStart_of_isBlank (h : isBlank c = true) : isKeyStart c = false := by
  rw [← Bool.not_eq_true]
  intro hstart
  have hletter : c.toNat = 95 ∨ 65 ≤ c.toNat ∧ c.toNat ≤ 90 ∨ 97 ≤ c.toNat ∧ c.toNat ≤ 122 := by
    rcases Bool.or_eq_true_iff.mp hstart with hletter | hline
    · unfold Char.isAlpha Char.isUpper Char.isLower at hletter
      simp only [Bool.or_eq_true, Bool.and_eq_true, decide_eq_true_eq,
        UInt32.le_iff_toNat_le] at hletter
      exact .inr hletter
    · exact .inl (congrArg Char.toNat (beq_iff_eq.mp hline))
  simp only [isBlank, inRanges, blankRanges, List.any_cons, List.any_nil, Bool.or_false,
    Bool.or_eq_true, Bool.and_eq_true, decide_eq_true_eq] at h
  omega

/-- An attribute is read where it is written. -/
theorem attribute?_text (ha : a.IsProper) (rest : List Char) :
    attribute? (a.text ++ rest) = some (a, rest) := by
  obtain ⟨⟨c, cs, hkey, hstart, hchars⟩, hvalue⟩ := ha
  have hname : ∀ d ∈ c :: cs, isKeyChar d = true :=
    List.forall_mem_cons.mpr ⟨isKeyChar_of_isKeyStart hstart, hchars⟩
  have hquote : ∀ d ∈ a.value, (d != '"') = true :=
    fun d hd => bne_iff_ne.mpr fun heq => hvalue (heq ▸ hd)
  have htext : a.text ++ rest = (c :: cs) ++ '=' :: '"' :: (a.value ++ '"' :: rest) := by
    simp [Attribute.text, hkey]
  have hequals : ∀ d, ('=' :: '"' :: (a.value ++ '"' :: rest)).head? = some d →
      isKeyChar d = false := by simp [isKeyChar]
  have hcloses : ∀ d, ('"' :: rest).head? = some d → (d != '"') = false := by simp
  obtain ⟨hkeyRead, hbehind⟩ := takeWhile_append_of_head? hname hequals
  obtain ⟨hvalueRead, hleft⟩ := takeWhile_append_of_head? hquote hcloses
  rw [List.cons_append] at htext hkeyRead hbehind
  rw [htext, attribute?]
  simp only [hstart, hbehind, hleft, hkeyRead, hvalueRead, ← hkey, if_true]

/-- What is read is an attribute as it is written, and what stands behind it is left. -/
theorem attribute?_eq_some_iff : attribute? cs = some (a, rest) ↔
    a.IsProper ∧ cs = a.text ++ rest := by
  constructor
  · intro h
    rw [attribute?.eq_def] at h
    split at h
    · cases h
    · next c r =>
      split at h
      · next hstart =>
        split at h
        · next tail hbehind =>
          split at h
          · next q after hleft =>
            cases h
            obtain ⟨hkey, hchars, -⟩ := takeWhile_dropWhile_eq_iff.mp ⟨rfl, hbehind⟩
            obtain ⟨hvalue, hquote, hq⟩ := takeWhile_dropWhile_eq_iff.mp ⟨rfl, hleft⟩
            obtain rfl : q = '"' := by simpa using hq q rfl
            refine ⟨⟨⟨c, r.takeWhile isKeyChar, ?_, hstart, ?_⟩, ?_⟩, ?_⟩
            · exact List.takeWhile_cons_of_pos (isKeyChar_of_isKeyStart hstart)
            · exact List.all_eq_true.mp List.all_takeWhile
            · exact fun hmem => by simpa using hquote _ hmem
            · have htext := congrArg (fun t => (c :: r).takeWhile isKeyChar ++ '=' :: '"' :: t) hvalue
              exact hkey.trans (htext.trans (by simp [Attribute.text]))
          · cases h
        · cases h
      · cases h
  · rintro ⟨ha, rfl⟩
    exact attribute?_text ha rest

theorem attribute?_of_isBlank (h : isBlank c = true) (cs : List Char) :
    attribute? (c :: cs) = none := by
  rw [attribute?]
  exact if_neg (by rw [isKeyStart_of_isBlank h]; exact Bool.false_ne_true)

theorem attributes?_of_allBlank (h : allBlank cs = true) : attributes? cs = some [] := by
  cases cs with
  | nil => rw [attributes?]
  | cons c r =>
    obtain ⟨hc, hr⟩ := Bool.and_eq_true_iff.mp h
    have hrest : r.dropWhile isBlank = [] :=
      (takeWhile_dropWhile_eq_iff.mpr
        ⟨(List.append_nil r).symm, List.all_eq_true.mp hr, by simp⟩).2
    rw [attributes?, if_pos hc]
    split
    · rfl
    · next d s hs =>
      rw [hrest] at hs
      cases hs

/-- An attribute does not start with white space. -/
theorem Attribute.IsProper.exists_text (ha : a.IsProper) :
    ∃ c cs, a.text = c :: cs ∧ isBlank c = false := by
  obtain ⟨⟨c, cs, hkey, hstart, -⟩, -⟩ := ha
  refine ⟨c, cs ++ '=' :: '"' :: a.value ++ ['"'], by simp [Attribute.text, hkey], ?_⟩
  rw [← Bool.not_eq_true]
  intro hblank
  rw [isKeyStart_of_isBlank hblank] at hstart
  cases hstart

/-- White space and an attribute are read before the attributes that follow. -/
theorem attributes?_attribute {space : List Char} (hne : space ≠ [])
    (hspace : allBlank space = true) (ha : a.IsProper) (rest : List Char) :
    attributes? (space ++ (a.text ++ rest)) = (attributes? rest).map (a :: ·) := by
  obtain ⟨c, r, rfl⟩ := List.exists_cons_of_ne_nil hne
  obtain ⟨hc, hr⟩ := Bool.and_eq_true_iff.mp hspace
  obtain ⟨d, s, htext, hd⟩ := ha.exists_text
  have hread := attribute?_text ha rest
  have hbehind : (r ++ (a.text ++ rest)).dropWhile isBlank = a.text ++ rest :=
    (takeWhile_append_of_head? (List.all_eq_true.mp hr) (by simp [htext, hd])).2
  rw [htext, List.cons_append] at hread hbehind ⊢
  rw [List.cons_append, attributes?, if_pos hc]
  split
  · next hs =>
    rw [hbehind] at hs
    cases hs
  · next d' s' hs =>
    obtain ⟨rfl, rfl⟩ := List.cons.inj (hbehind.symm.trans hs)
    split
    · next hnone =>
      rw [hread] at hnone
      cases hnone
    · next a' rest' hsome =>
      obtain ⟨rfl, rfl⟩ := Prod.mk.inj (Option.some.inj (hread.symm.trans hsome))
      rfl

/-- Attributes that fill a text are written in it one after another, up to the white space at its
end. -/
theorem exists_writes_of_attributes? (h : attributes? cs = some as) :
    ∃ pairs space, cs = pairs ++ space ∧ Writes pairs as ∧ allBlank space = true := by
  fun_induction attributes? cs generalizing as with
  | case1 =>
    cases h
    exact ⟨[], [], rfl, .nil, rfl⟩
  | case2 c r hc hr =>
    cases h
    obtain ⟨htext, hblank, -⟩ := takeWhile_dropWhile_eq_iff.mp ⟨rfl, hr⟩
    rw [List.append_nil] at htext
    rw [← htext] at hblank
    refine ⟨[], c :: r, rfl, .nil, ?_⟩
    exact List.all_eq_true.mpr (List.forall_mem_cons.mpr ⟨hc, hblank⟩)
  | case3 c r hc d s hr hnone =>
    cases h
  | case4 c r hc d s hr a rest hread ih =>
    obtain ⟨as, has, rfl⟩ := Option.map_eq_some_iff.mp h
    obtain ⟨pairs, space, rfl, hwrites, hspace⟩ := ih has
    obtain ⟨ha, htext⟩ := attribute?_eq_some_iff.mp hread
    obtain ⟨hgap, hblank, -⟩ := takeWhile_dropWhile_eq_iff.mp ⟨rfl, hr⟩
    refine ⟨(c :: r.takeWhile isBlank) ++ (a.text ++ pairs), space, ?_, ?_, hspace⟩
    · rw [htext] at hgap
      simpa using hgap
    · refine .cons (List.cons_ne_nil _ _) ?_ ha hwrites
      exact List.all_eq_true.mpr (List.forall_mem_cons.mpr ⟨hc, hblank⟩)
  | case5 c r hc => cases h

theorem attributes?_of_writes (h : Writes pairs as) {space : List Char}
    (hspace : allBlank space = true) : attributes? (pairs ++ space) = some as := by
  induction h with
  | nil => exact attributes?_of_allBlank hspace
  | cons hne hgap ha _ ih =>
    rw [List.append_assoc, List.append_assoc, attributes?_attribute hne hgap ha, ih, Option.map_some]

theorem found_of_attribute? (h : attribute? cs = some (a, rest)) : found cs = a :: found rest := by
  rw [found]
  split
  · next hread =>
    obtain ⟨rfl, rfl⟩ := Prod.mk.inj (Option.some.inj (h.symm.trans hread))
    rfl
  · next hnone =>
    rw [h] at hnone
    cases hnone

theorem found_cons (h : attribute? (c :: cs) = none) : found (c :: cs) = found cs := by
  rw [found]
  split
  · next hread =>
    rw [h] at hread
    cases hread
  · rfl

theorem found_blank {space : List Char} (h : allBlank space = true) (cs : List Char) :
    found (space ++ cs) = found cs := by
  induction space with
  | nil => rfl
  | cons c space ih =>
    obtain ⟨hc, hspace⟩ := Bool.and_eq_true_iff.mp h
    rw [List.cons_append, found_cons (attribute?_of_isBlank hc _), ih hspace]

/-- A search finds the attributes that are written, whatever their values look like. -/
theorem found_of_writes (h : Writes pairs as) : found pairs = as := by
  induction h with
  | nil => simp [found, attribute?]
  | cons _ hspace ha _ ih => rw [found_blank hspace, found_of_attribute? (attribute?_text ha _), ih]

theorem attributes?_eq_some_iff : attributes? cs = some as ↔
    ∃ pairs space, cs = pairs ++ space ∧ Writes pairs as ∧ allBlank space = true := by
  constructor
  · exact exists_writes_of_attributes?
  · rintro ⟨pairs, space, rfl, hwrites, hspace⟩
    exact attributes?_of_writes hwrites hspace

theorem valueOf?_eq_some_iff {key value : List Char} :
    valueOf? as key = some value ↔ IsLastValue as key value := by
  rw [valueOf?, Option.map_eq_some_iff]
  constructor
  · rintro ⟨a, ha, rfl⟩
    obtain ⟨hkey, after, before, has, hafter⟩ := List.find?_eq_some_iff_append.mp ha
    obtain rfl : a.key = key := beq_iff_eq.mp hkey
    refine ⟨before.reverse, after.reverse, ?_, fun b hb => ?_⟩
    · simpa using congrArg List.reverse has
    · simpa using hafter b (List.mem_reverse.mp hb)
  · rintro ⟨before, after, rfl, hafter⟩
    refine ⟨⟨key, value⟩, List.find?_eq_some_iff_append.mpr ⟨beq_self_eq_true key, ?_⟩, rfl⟩
    refine ⟨after.reverse, before.reverse, by simp, fun b hb => ?_⟩
    simpa using hafter b (List.mem_reverse.mp hb)

theorem isBody_iff {line body : List Char} : IsBody line body ↔ withoutLineEnd line = body := by
  have hend (c : Char) : (c == '\r' || c == '\n') = true ↔ c = '\r' ∨ c = '\n' := by simp
  rw [withoutLineEnd, List.reverse_eq_iff]
  constructor
  · rintro ⟨lineEnd, rfl, hlineEnd, hlast⟩
    rw [List.reverse_append]
    refine (takeWhile_append_of_head? (fun c hc => ?_) fun c hc => ?_).2
    · exact (hend c).mpr (hlineEnd c (List.mem_reverse.mp hc))
    · rw [List.head?_reverse] at hc
      exact Bool.eq_false_iff.mpr (mt (hend c).mp (hlast c hc))
  · intro h
    obtain ⟨hline, htaken, hlast⟩ := takeWhile_dropWhile_eq_iff.mp ⟨rfl, h⟩
    refine ⟨(line.reverse.takeWhile fun c => c == '\r' || c == '\n').reverse, ?_, ?_, ?_⟩
    · simpa using congrArg List.reverse hline
    · exact fun c hc => (hend c).mp (htaken c (List.mem_reverse.mp hc))
    · intro c hc
      rw [← hend, hlast c (by rwa [List.head?_reverse])]
      exact Bool.false_ne_true

/-- A line is a header just when it is one by the grammar. -/
theorem parse?_eq_some_iff {line : String} {header : Header} : parse? line = some header ↔
    ∃ pairs attributes, Reads line.toList pairs attributes ∧
      IsLastValue attributes "title".toList header.title.toList ∧
      IsLastValue attributes "date".toList header.date.toList ∧
      isIsoDate header.date.toList = true := by
  unfold parse?
  simp only [Reads, isBody_iff, ← valueOf?_eq_some_iff]
  constructor
  · intro h
    split at h
    · cases h
    · next rest hrest =>
      simp only [Option.bind_eq_bind, Option.bind_eq_some_iff] at h
      obtain ⟨attributes, hattributes, title, htitle, date, hdate, h⟩ := h
      split at h
      · next hiso =>
        cases h
        obtain ⟨pairs, space, rfl, hwrites, hspace⟩ := attributes?_eq_some_iff.mp hattributes
        have hline := List.isPrefixOf?_eq_some_iff_append_eq.mp hrest
        refine ⟨pairs, attributes, ⟨hwrites, space, hspace, ?_⟩, ?_⟩
        · rw [← hline, List.append_assoc]
          rfl
        · simpa only [String.toList_ofList] using ⟨htitle, hdate, hiso⟩
      · cases h
  · rintro ⟨pairs, attributes, ⟨hwrites, space, hspace, hline⟩, htitle, hdate, hiso⟩
    have hrest : sigil.isPrefixOf? (withoutLineEnd line.toList) = some (pairs ++ space) := by
      rw [hline, List.append_assoc]
      exact List.isPrefixOf?_eq_some_iff_append_eq.mpr rfl
    rw [hrest]
    simp only [attributes?_of_writes hwrites hspace, htitle, hdate, hiso, Option.bind_eq_bind,
      Option.bind_some, if_true, String.ofList_toList]

/-- A line is a header just when it is one by the grammar, and then its title and its date are the
last ones. However the values look, a search finds the attributes by which the line is read. -/
theorem parse?_iff_grammar (line : String) (header : Header) :
    (parse? line = some header ↔
      ∃ pairs attributes, Reads line.toList pairs attributes ∧
        IsLastValue attributes "title".toList header.title.toList ∧
        IsLastValue attributes "date".toList header.date.toList ∧
        isIsoDate header.date.toList = true) ∧
    ∀ pairs attributes, Reads line.toList pairs attributes → found pairs = attributes := by
  refine ⟨parse?_eq_some_iff, fun pairs attributes hreads => ?_⟩
  exact found_of_writes hreads.1

/-- A title seems to start in the first value and a date in the second. -/
def lookalike : String :=
  "%hyperhelp a=\"x title=\" b=\" date=\" title=\"T\"\tdate=\"2024-02-30\" \r\n"

def lookalikeAttributes : List Attribute :=
  [⟨"a".toList, "x title=".toList⟩, ⟨"b".toList, " date=".toList⟩, ⟨"title".toList, "T".toList⟩,
    ⟨"date".toList, "2024-02-30".toList⟩]

theorem lookalike_parse? : ∃ pairs, Reads lookalike.toList pairs lookalikeAttributes ∧
    found pairs = lookalikeAttributes ∧ parse? lookalike = some ⟨"T", "2024-02-30"⟩ := by
  have hread : attributes? ((withoutLineEnd lookalike.toList).drop 10) =
      some lookalikeAttributes := by decide +kernel
  obtain ⟨pairs, space, htext, hwrites, hspace⟩ := attributes?_eq_some_iff.mp hread
  have hreads : Reads lookalike.toList pairs lookalikeAttributes := by
    refine ⟨hwrites, space, hspace, isBody_iff.mpr ?_⟩
    rw [List.append_assoc, ← htext]
    decide +kernel
  obtain ⟨hgrammar, hfound⟩ := parse?_iff_grammar lookalike ⟨"T", "2024-02-30"⟩
  refine ⟨pairs, hreads, hfound _ _ hreads, hgrammar.mpr ⟨pairs, _, hreads, ?_, ?_, ?_⟩⟩
  · exact valueOf?_eq_some_iff.mp (by decide)
  · exact valueOf?_eq_some_iff.mp (by decide)
  · decide

end HelpAudit.Header
