import HelpAudit.Json.Printer
import HelpAudit.Json.Reader
import Mathlib.Data.List.TakeWhile

/-!
Reading back what is written into a JSON text: a quoted string is the string it quotes, and an
object may be given one more member in front. The reader answers the same with more fuel.
-/
namespace HelpAudit.Json

namespace Written

/-- More fuel never changes an answer. -/
theorem read_succ (fuel : Nat) :
    (∀ cs x, read? fuel cs = some x → read? (fuel + 1) cs = some x) ∧
    (∀ cs x, readItems? fuel cs = some x → readItems? (fuel + 1) cs = some x) ∧
    (∀ cs x, readMembers? fuel cs = some x → readMembers? (fuel + 1) cs = some x) := by
  have hmap {α β : Type} {f : α → β} {a b : Option α} (h : ∀ x, a = some x → b = some x) {y : β}
      (hy : a.map f = some y) : b.map f = some y := by
    obtain ⟨x, hx, rfl⟩ := Option.map_eq_some_iff.mp hy
    rw [h x hx, Option.map_some]
  induction fuel with
  | zero => simp [read?, readItems?, readMembers?]
  | succ fuel ih =>
    obtain ⟨hread, hitems, hmembers⟩ := ih
    refine ⟨fun cs x h => ?_, fun cs x h => ?_, fun cs x h => ?_⟩
    · rw [read?] at h ⊢
      split at h
      case h_5 r heq =>
        split at h
        · exact h
        · exact hmap (hitems _) h
      case h_6 r heq =>
        split at h
        · exact h
        · exact hmap (hmembers _) h
      all_goals exact h
    · rw [readItems?] at h ⊢
      obtain ⟨⟨w, r⟩, hw, h⟩ := Option.bind_eq_some_iff.mp h
      rw [hread _ _ hw]
      simp only [Option.bind_eq_bind, Option.bind_some] at h ⊢
      split at h
      · obtain ⟨⟨ws, after⟩, hws, h⟩ := Option.bind_eq_some_iff.mp h
        rw [hitems _ _ hws]
        exact h
      · exact h
      · exact h
    · rw [readMembers?] at h ⊢
      split at h
      · obtain ⟨⟨name, r⟩, hname, h⟩ := Option.bind_eq_some_iff.mp h
        rw [hname]
        simp only [Option.bind_eq_bind, Option.bind_some] at h ⊢
        split at h
        · obtain ⟨⟨w, r⟩, hw, h⟩ := Option.bind_eq_some_iff.mp h
          rw [hread _ _ hw]
          simp only [Option.bind_some] at h ⊢
          split at h
          · obtain ⟨⟨ms, after⟩, hms, h⟩ := Option.bind_eq_some_iff.mp h
            rw [hmembers _ _ hms]
            exact h
          · exact h
          · exact h
        · exact h
      · cases h

theorem readMembers?_mono {fuel more : Nat} (hle : fuel ≤ more) {cs : List Char}
    {x : List (Option String × Written) × List Char} (h : readMembers? fuel cs = some x) :
    readMembers? more cs = some x := by
  induction hle with
  | refl => exact h
  | step _ ih => exact (read_succ _).2.2 cs x ih

theorem skipSpace_skipSpace (cs : List Char) : skipSpace (skipSpace cs) = skipSpace cs := by
  rw [skipSpace, List.dropWhile_eq_self_iff]
  exact fun hl => List.dropWhile_get_zero_not _ _ hl

theorem skipSpace_cons {c : Char} (h : isSpace c = false) (cs : List Char) :
    skipSpace (c :: cs) = c :: cs :=
  List.dropWhile_cons_of_neg (by rw [h]; exact Bool.false_ne_true)

/-- A text that reads as an object starts with a brace and goes on with the members. -/
theorem exists_readMembers? {fuel : Nat} {cs rest : List Char}
    {ms : List (Option String × Written)} (hne : ms ≠ [])
    (h : read? (fuel + 1) cs = some (.object ms, rest)) :
    ∃ r, skipSpace cs = '\x7b' :: r ∧ readMembers? fuel r = some (ms, rest) := by
  rw [read?] at h
  split at h
  case h_6 r heq =>
    refine ⟨r, heq, ?_⟩
    split at h
    · cases h
      exact absurd rfl hne
    · obtain ⟨x, hx, heq⟩ := Option.map_eq_some_iff.mp h
      cases heq
      cases fuel with
      | zero => cases hx
      | succ fuel =>
        rw [readMembers?] at hx ⊢
        rwa [skipSpace_skipSpace] at hx
  case h_5 r heq =>
    split at h
    · cases h
    · obtain ⟨x, -, hx⟩ := Option.map_eq_some_iff.mp h
      cases hx
  case h_4 | h_7 =>
    obtain ⟨x, -, hx⟩ := Option.map_eq_some_iff.mp h
    cases hx
  all_goals cases h

section Quoted

/-- An escaped character is read back. -/
theorem character?_escapeChar (c : Char) (rest : List Char) :
    character? (escapeChar c ++ rest) = some (some c, rest) := by
  unfold escapeChar
  iterate 7 (split; · next h => rw [h]; rfl)
  next hquote hbackslash _ _ _ _ _ =>
  split
  · next hcontrol =>
    -- Two hexadecimal digits write a control character.
    have hdigit : ∀ k < 16, Text.hexValue? (Nat.digitChar k) = some k := by decide
    have hhigh := hdigit (c.toNat / 16) (by omega)
    have hlow := hdigit (c.toNat % 16) (by omega)
    have hzero : Text.hexValue? '0' = some 0 := by decide
    have hvalue : ((0 * 16 + 0) * 16 + c.toNat / 16) * 16 + c.toNat % 16 = c.toNat := by omega
    have htrailing : isTrailing c.toNat = false := by simp [isTrailing]; omega
    have hleading : isLeading c.toNat = false := by simp [isLeading]; omega
    rw [Nat.toDigits_of_lt_base (by omega), Nat.toDigits_of_lt_base (by omega)]
    simp only [List.cons_append, List.nil_append, character?, unit?, hzero, hhigh, hlow,
      Option.bind_eq_bind, Option.bind_some, Option.pure_def, hvalue, htrailing, hleading]
    simp
  · next hprintable => simp [character?, hbackslash, hprintable]

/-- No escaped character starts with a quote. -/
theorem exists_escapeChar (c : Char) : ∃ d ds, escapeChar c = d :: ds ∧ d ≠ '"' := by
  unfold escapeChar
  iterate 7 (split; · exact ⟨'\\', _, rfl, by decide⟩)
  next hquote _ _ _ _ _ _ =>
  split
  · exact ⟨'\\', _, rfl, by decide⟩
  · exact ⟨c, [], rfl, hquote⟩

theorem length_le_flatMap_escapeChar (s : List Char) :
    s.length ≤ (s.flatMap escapeChar).length := by
  induction s with
  | nil => exact Nat.le_refl 0
  | cons c s ih =>
    obtain ⟨d, ds, hc, -⟩ := exists_escapeChar c
    rw [List.flatMap_cons, hc, List.length_append, List.length_cons, List.length_cons]
    omega

theorem stringFrom_escaped (s before rest : List Char) {fuel : Nat} (hfuel : s.length < fuel) :
    stringFrom fuel true before (s.flatMap escapeChar ++ '"' :: rest) =
      some (some (.ofList (before.reverse ++ s)), rest) := by
  induction s generalizing before fuel with
  | nil =>
    obtain ⟨fuel, rfl⟩ := Nat.exists_eq_add_one_of_ne_zero (Nat.ne_zero_of_lt hfuel)
    simp [stringFrom]
  | cons c s ih =>
    obtain ⟨fuel, rfl⟩ := Nat.exists_eq_add_one_of_ne_zero (Nat.ne_zero_of_lt hfuel)
    have hread := character?_escapeChar c (s.flatMap escapeChar ++ '"' :: rest)
    rw [List.flatMap_cons, List.append_assoc, stringFrom, hread]
    · dsimp only
      rw [ih _ (by simpa using hfuel), List.reverse_cons, List.append_assoc, List.singleton_append]
    · intro r heq
      obtain ⟨d, ds, hc, hne⟩ := exists_escapeChar c
      rw [hc] at heq
      exact hne (List.cons.inj heq).1

theorem toList_stringText (s : String) :
    (stringText s).toList = '"' :: (s.toList.flatMap escapeChar ++ ['"']) := by
  rw [stringText, String.toList_ofList, List.cons_append]

/-- A string is read back behind its opening quote. -/
theorem string?_stringText (s : String) (rest : List Char) :
    string? (s.toList.flatMap escapeChar ++ '"' :: rest) = some (some s, rest) := by
  have hlength := length_le_flatMap_escapeChar s.toList
  have hfuel : s.toList.length < (s.toList.flatMap escapeChar ++ '"' :: rest).length + 1 := by
    rw [List.length_append]
    omega
  rw [string?, stringFrom_escaped _ _ _ hfuel, List.reverse_nil, List.nil_append,
    String.ofList_toList]

end Quoted

/-- The text of an object with one more member in front, a name that stands for a string. -/
def putFront (name value text : String) : String :=
  let cs := text.toList
  .ofList (cs.takeWhile isSpace ++ '\x7b' :: ((stringText name).toList ++
    ':' :: ((stringText value).toList ++ ',' :: (cs.dropWhile isSpace).tail)))

/-- A quoted string is a value. -/
theorem read?_stringText (fuel : Nat) (s : String) (rest : List Char) :
    read? (fuel + 1) ((stringText s).toList ++ rest) = some (.string (some s), rest) := by
  rw [toList_stringText, List.cons_append, List.append_assoc, List.singleton_append, read?,
    skipSpace_cons rfl]
  simp [string?_stringText]

/-- A member with a string is read in front of the others. -/
theorem readMembers?_cons {fuel : Nat} {cs rest : List Char} {ms : List (Option String × Written)}
    (h : readMembers? (fuel + 1) cs = some (ms, rest)) (name value : String) :
    readMembers? (fuel + 2)
        ((stringText name).toList ++ ':' :: ((stringText value).toList ++ ',' :: cs)) =
      some ((some name, .string (some value)) :: ms, rest) := by
  have hcolon := @skipSpace_cons ':' rfl
  have hcomma := @skipSpace_cons ',' rfl
  rw [toList_stringText name, List.cons_append, List.append_assoc, List.singleton_append,
    readMembers?, skipSpace_cons rfl]
  simp [string?_stringText, hcolon, read?_stringText, hcomma, h]

/-- Behind a brace, a quote starts the members. -/
theorem read?_of_quote {fuel : Nat} {cs r : List Char} (h : skipSpace cs = '\x7b' :: '"' :: r) :
    read? (fuel + 1) cs = (readMembers? fuel ('"' :: r)).map fun x => (.object x.1, x.2) := by
  have hquote := @skipSpace_cons '"' rfl
  rw [read?, h]
  simp [hquote]

theorem parse?_eq_some_iff {text : String} {w : Written} : parse? text = some w ↔
    ∃ rest, read? (2 * text.toList.length + 2) text.toList = some (w, rest) ∧
      skipSpace rest = [] := by
  unfold parse?
  dsimp only
  cases read? (2 * text.toList.length + 2) text.toList with
  | none => simp
  | some x => grind [List.isEmpty_iff]

/-- The new member stands in front of those that were there. -/
theorem parse?_putFront {text : String} {ms : List (Option String × Written)} (hne : ms ≠ [])
    (h : parse? text = some (.object ms)) (name value : String) :
    parse? (putFront name value text) =
      some (.object ((some name, .string (some value)) :: ms)) := by
  obtain ⟨rest, hread, hend⟩ := parse?_eq_some_iff.mp h
  obtain ⟨r, hr, hmembers⟩ := exists_readMembers? hne hread
  rw [skipSpace] at hr
  have htext : (putFront name value text).toList = text.toList.takeWhile isSpace ++ '\x7b' ::
      ((stringText name).toList ++ ':' :: ((stringText value).toList ++ ',' :: r)) := by
    simp [putFront, hr]
  have hspace : skipSpace (putFront name value text).toList = '\x7b' ::
      ((stringText name).toList ++ ':' :: ((stringText value).toList ++ ',' :: r)) := by
    rw [htext, skipSpace, List.dropWhile_append_of_pos fun c hc => List.mem_takeWhile_imp hc]
    exact skipSpace_cons rfl _
  -- The new text is longer, so there is fuel for the member and as much as before for the others.
  have hlength : text.toList.length + 1 ≤ (putFront name value text).toList.length := by
    have hsplit := congrArg List.length
      (List.takeWhile_append_dropWhile (p := isSpace) (l := text.toList))
    rw [hr, List.length_append] at hsplit
    rw [htext]
    simp only [List.length_append, List.length_cons] at hsplit ⊢
    omega
  obtain ⟨fuel, hfuel, hle⟩ : ∃ fuel, 2 * (putFront name value text).toList.length + 2 = fuel + 3 ∧
      2 * text.toList.length + 1 ≤ fuel + 1 :=
    ⟨2 * (putFront name value text).toList.length - 1, by omega, by omega⟩
  have hfront := readMembers?_cons (readMembers?_mono hle hmembers) name value
  refine parse?_eq_some_iff.mpr ⟨rest, ?_, hend⟩
  rw [toList_stringText name, List.cons_append] at hfront hspace
  rw [hfuel, read?_of_quote hspace, hfront, Option.map_some]

end Written

end HelpAudit.Json
