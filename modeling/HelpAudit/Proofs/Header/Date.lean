import HelpAudit.Proofs.Header.Grammar

/-!
The dates of headers. Month and day are written by two digits 0-9 each; the digits of the year may
be of any script, and only where they are 0-9 too is the date an ISO date.
-/
namespace HelpAudit.Header

open Text

/-- A number below a hundred as it is written by two digits 0-9. -/
def twoDigits (n : Nat) : List Char := [Nat.digitChar (n / 10), Nat.digitChar (n % 10)]

/-- Four digits of a year, a month from 01 to 12 and a day from 01 to 31, with hyphens between. -/
def IsDate (isYearDigit : Char → Bool) (date : List Char) : Prop :=
  ∃ year month day, year.length = 4 ∧ (∀ c ∈ year, isYearDigit c = true) ∧
    (1 ≤ month ∧ month ≤ 12) ∧ (1 ≤ day ∧ day ≤ 31) ∧
    date = year ++ '-' :: twoDigits month ++ '-' :: twoDigits day

variable {isYearDigit : Char → Bool} {date : List Char} {c t u : Char} {n d most : Nat}

theorem eq_digitChar_of_isDigit (h : c.isDigit = true) : c = Nat.digitChar (c.toNat - 48) := by
  have hdigits : ∀ n < 58, 48 ≤ n → Char.ofNat n = Nat.digitChar (n - 48) := by decide
  simp only [Char.isDigit, Bool.and_eq_true, decide_eq_true_eq, UInt32.le_iff_toNat_le] at h
  rw [← hdigits c.toNat (Nat.lt_succ_of_le h.2) h.1, Char.ofNat_toNat]

theorem digitValue?_eq_some_iff : digitValue? c = some d ↔ d < 10 ∧ c = Nat.digitChar d := by
  constructor
  · intro h
    unfold digitValue? at h
    split at h
    · next hdigit =>
      cases h
      refine ⟨?_, eq_digitChar_of_isDigit hdigit⟩
      have hc : c.toNat ≤ 57 := by
        simp only [Char.isDigit, Bool.and_eq_true, decide_eq_true_eq] at hdigit
        exact hdigit.2
      change c.toNat - 48 < 10
      omega
    · cases h
  · rintro ⟨hd, rfl⟩
    revert d
    decide

/-- Two characters are read as a number when they are how it is written. -/
theorem natural?_pair : natural? [t, u] = some n ↔ n < 100 ∧ [t, u] = twoDigits n := by
  have hread : natural? [t, u] =
      (digitValue? t).bind fun a => (digitValue? u).map (a * 10 + ·) := by
    cases ht : digitValue? t <;> simp [natural?, ht]
  simp only [hread, Option.bind_eq_some_iff, Option.map_eq_some_iff, digitValue?_eq_some_iff]
  constructor
  · rintro ⟨a, ⟨ha, rfl⟩, b, ⟨hb, rfl⟩, rfl⟩
    have htens : (a * 10 + b) / 10 = a := by omega
    have hunits : (a * 10 + b) % 10 = b := by omega
    exact ⟨by omega, by rw [twoDigits, htens, hunits]⟩
  · rintro ⟨hn, hpair⟩
    obtain ⟨ht, hu⟩ := List.cons.inj hpair
    exact ⟨n / 10, ⟨by omega, ht⟩, n % 10, ⟨by omega, List.singleton_inj.mp hu⟩, by omega⟩

theorem isOrdinal_iff (hmost : most < 100) :
    isOrdinal most t u = true ↔ ∃ n, (1 ≤ n ∧ n ≤ most) ∧ [t, u] = twoDigits n := by
  have hread : isOrdinal most t u = true ↔
      ∃ n, natural? [t, u] = some n ∧ 1 ≤ n ∧ n ≤ most := by
    unfold isOrdinal
    cases natural? [t, u] <;> simp
  simp only [hread, natural?_pair]
  constructor
  · rintro ⟨n, ⟨-, hpair⟩, hn⟩
    exact ⟨n, hn, hpair⟩
  · rintro ⟨n, hn, hpair⟩
    exact ⟨n, ⟨by omega, hpair⟩, hn⟩

theorem isIsoDate_iff : isIsoDate date = true ↔ IsDate isDecimal date := by
  constructor
  · intro h
    unfold isIsoDate at h
    split at h
    · next y₁ y₂ y₃ y₄ m₁ m₂ d₁ d₂ =>
      simp only [Bool.and_eq_true, isOrdinal_iff (by decide : 12 < 100),
        isOrdinal_iff (by decide : 31 < 100)] at h
      obtain ⟨⟨hyear, month, hmonth, hm⟩, day, hday, hd⟩ := h
      refine ⟨[y₁, y₂, y₃, y₄], month, day, rfl, by simpa [and_assoc] using hyear, hmonth, hday, ?_⟩
      rw [← hm, ← hd]
      rfl
    · cases h
  · rintro ⟨year, month, day, hlength, hyear, hmonth, hday, rfl⟩
    obtain ⟨y₁, y₂, y₃, y₄, rfl⟩ := List.length_eq_four.mp hlength
    have hm := (isOrdinal_iff (by decide : 12 < 100)).mpr ⟨month, hmonth, rfl⟩
    have hd := (isOrdinal_iff (by decide : 31 < 100)).mpr ⟨day, hday, rfl⟩
    have hy : (isDecimal y₁ && isDecimal y₂ && isDecimal y₃ && isDecimal y₄) = true := by
      simpa [and_assoc] using hyear
    change (_ && isOrdinal 12 _ _ && isOrdinal 31 _ _) = true
    rw [hy, hm, hd]
    rfl

theorem isYearDigit_of_isDate (h : IsDate isYearDigit date) :
    ∀ c ∈ date.take 4, isYearDigit c = true := by
  obtain ⟨year, month, day, hlength, hyear, -, -, rfl⟩ := h
  rwa [List.append_assoc, List.take_left' hlength]

/-- A date of any script is one of another when the year's digits are. -/
theorem IsDate.isDate (h : IsDate isYearDigit date) {isYearDigit' : Char → Bool}
    (hyear : ∀ c ∈ date.take 4, isYearDigit' c = true) : IsDate isYearDigit' date := by
  obtain ⟨year, month, day, hlength, -, hmonth, hday, rfl⟩ := h
  rw [List.append_assoc, List.take_left' hlength] at hyear
  exact ⟨year, month, day, hlength, hyear, hmonth, hday, rfl⟩

theorem isDigit_of_mem_twoDigits (hn : n < 100) (h : c ∈ twoDigits n) : c.isDigit = true := by
  simp only [twoDigits, List.mem_cons, List.not_mem_nil, or_false] at h
  rcases h with rfl | rfl <;> rw [Nat.isDigit_digitChar, decide_eq_true_iff] <;> omega

theorem quote_not_mem_of_isDate (h : IsDate isDecimal date) : '"' ∉ date := by
  obtain ⟨year, month, day, -, hyear, hmonth, hday, rfl⟩ := h
  have hquote : isDecimal '"' = false := by decide
  simp only [List.mem_append, List.mem_cons, not_or]
  refine ⟨⟨fun h => ?_, by decide, fun h => ?_⟩, by decide, fun h => ?_⟩
  · rw [hyear _ h] at hquote
    cases hquote
  · exact absurd (isDigit_of_mem_twoDigits (by omega) h) (by decide)
  · exact absurd (isDigit_of_mem_twoDigits (by omega) h) (by decide)

def attributes (header : Header) : List Attribute :=
  [⟨"title".toList, header.title.toList⟩, ⟨"date".toList, header.date.toList⟩]

/-- A header as a line, with a blank before each attribute. -/
def text (header : Header) : String :=
  .ofList (sigil ++ header.attributes.flatMap fun a => ' ' :: a.text)

theorem writes_flatMap {as : List Attribute} (h : ∀ a ∈ as, a.IsProper) :
    Writes (as.flatMap fun a => ' ' :: a.text) as := by
  induction as with
  | nil => exact .nil
  | cons a as ih =>
    obtain ⟨ha, has⟩ := List.forall_mem_cons.mp h
    exact .cons (List.cons_ne_nil ' ' []) rfl ha (ih has)

theorem isBody_text (header : Header) : IsBody header.text.toList header.text.toList := by
  refine ⟨[], (List.append_nil _).symm, List.forall_mem_nil _, fun c hc => ?_⟩
  have hlast : header.text.toList.getLast? = some '"' := by
    simp [text, attributes, Attribute.text, List.getLast?_append, List.getLast?_cons]
  obtain rfl : '"' = c := Option.some.inj (hlast.symm.trans hc)
  decide

/-- A header is read back from its line. -/
theorem parse?_text {header : Header} (htitle : '"' ∉ header.title.toList)
    (hdate : isIsoDate header.date.toList = true) : parse? header.text = some header := by
  have hquote := quote_not_mem_of_isDate (isIsoDate_iff.mp hdate)
  have hproper : ∀ a ∈ header.attributes, a.IsProper := by
    refine List.forall_mem_cons.mpr ⟨⟨?_, htitle⟩, List.forall_mem_singleton.mpr ⟨?_, hquote⟩⟩
    · exact ⟨'t', "itle".toList, rfl, by decide, List.all_eq_true.mp (by decide)⟩
    · exact ⟨'d', "ate".toList, rfl, by decide, List.all_eq_true.mp (by decide)⟩
  have hbody := isBody_text header
  refine parse?_eq_some_iff.mpr
    ⟨_, header.attributes, ⟨writes_flatMap hproper, [], rfl, ?_⟩, ?_, ?_, hdate⟩
  · rw [List.append_nil]
    exact (congrArg (IsBody _) String.toList_ofList).mp hbody
  · exact ⟨[], _, rfl, by simp⟩
  · exact ⟨[_], [], rfl, by simp⟩

/-- Headers have just the dates with a year in digits of any script, and among these the dates with
a year in digits 0-9 are the ISO dates. -/
theorem exists_date_iff (date : String) :
    ((∃ line header, parse? line = some header ∧ header.date = date) ↔
      IsDate isDecimal date.toList) ∧
    ((∃ line header, parse? line = some header ∧ header.date = date ∧
        ∀ c ∈ date.toList.take 4, c.isDigit = true) ↔ IsDate Char.isDigit date.toList) := by
  have hdates : (∃ line header, parse? line = some header ∧ header.date = date) ↔
      IsDate isDecimal date.toList := by
    constructor
    · rintro ⟨line, header, hparse, rfl⟩
      obtain ⟨-, -, -, -, -, hdate⟩ := parse?_eq_some_iff.mp hparse
      exact isIsoDate_iff.mp hdate
    · intro hdate
      exact ⟨text ⟨"", date⟩, _, parse?_text (by simp) (isIsoDate_iff.mpr hdate), rfl⟩
  refine ⟨hdates, ?_⟩
  constructor
  · rintro ⟨line, header, hparse, hdate, hyear⟩
    exact (hdates.mp ⟨line, header, hparse, hdate⟩).isDate hyear
  · intro hdate
    have hyear := isYearDigit_of_isDate hdate
    have hdecimal : IsDate isDecimal date.toList :=
      hdate.isDate fun c hc => isDecimal_of_isDigit (hyear c hc)
    obtain ⟨line, header, hparse, heq⟩ := hdates.mpr hdecimal
    exact ⟨line, header, hparse, heq, hyear⟩

/-- The year 2024 in Arabic-Indic digits. -/
def otherScript : String := "\u0662\u0660\u0662\u0664-01-31"

/-- A header may have a year in digits of another script, and then its date is no ISO date. -/
theorem not_isDate_otherScript :
    parse? ("%hyperhelp title=\"T\" date=\"" ++ otherScript ++ "\"") = some ⟨"T", otherScript⟩ ∧
    ¬ IsDate Char.isDigit otherScript.toList ∧
    ¬ ∀ line header, parse? line = some header → IsDate Char.isDigit header.date.toList := by
  have hparse : parse? ("%hyperhelp title=\"T\" date=\"" ++ otherScript ++ "\"") =
      some ⟨"T", otherScript⟩ := by decide +kernel
  have hnot : ¬ IsDate Char.isDigit otherScript.toList := by
    intro h
    have hyear := List.all_eq_true.mpr (isYearDigit_of_isDate h)
    revert hyear
    decide
  exact ⟨hparse, hnot, fun h => hnot (h _ _ hparse)⟩

end HelpAudit.Header
