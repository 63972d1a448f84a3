import Mathlib.Data.List.Pairwise
import Mathlib.Tactic.ByContra

/-!
Search by halves in ascending numbers. No look-up of the search is past the end, and it finds the
last of the numbers that a key reaches.
-/
namespace HelpAudit.Ascending

/-- Halves the `size` entries from `base` on until one is left. -/
def halve? (xs : List Nat) (key base size : Nat) : Option Nat :=
  if size ≤ 1 then some base
  else
    xs[base + size / 2]?.bind fun x =>
      halve? xs key (if key < x then base else base + size / 2) (size - size / 2)
  termination_by size
  decreasing_by omega

/-- Where the key is (`ok`), or where it would have to be inserted (`error`). -/
def search? (xs : List Nat) (key : Nat) : Option (Except Nat Nat) :=
  if xs.isEmpty then some (.error 0)
  else
    (halve? xs key 0 xs.length).bind fun base =>
      xs[base]?.map fun x =>
        if x = key then .ok base else .error (if x < key then base + 1 else base)

variable {xs : List Nat} {key base size i j : Nat}

/-- The entry at `i` is the last one that the key reaches. -/
def IsLastReached (xs : List Nat) (key i : Nat) : Prop :=
  (∃ x, xs[i]? = some x ∧ x ≤ key) ∧
    ∀ x, xs[i + 1]? = some x → key < x

theorem getElem?_lt (hs : xs.Pairwise (· < ·)) {x y : Nat} (hi : xs[i]? = some x)
    (hj : xs[j]? = some y) (h : i < j) : x < y := by
  obtain ⟨hi', rfl⟩ := List.getElem?_eq_some_iff.mp hi
  obtain ⟨hj', rfl⟩ := List.getElem?_eq_some_iff.mp hj
  exact List.pairwise_iff_getElem.mp hs i j hi' hj' h

theorem IsLastReached.unique (hs : xs.Pairwise (· < ·)) (hi : IsLastReached xs key i)
    (hj : IsLastReached xs key j) : i = j := by
  have hle : ∀ {i j}, IsLastReached xs key i → IsLastReached xs key j → i ≤ j := by
    rintro i j ⟨⟨x, hx, hxkey⟩, -⟩ ⟨⟨y, hy, -⟩, hnext⟩
    by_contra hlt
    have hlength := (List.getElem?_eq_some_iff.mp hx).1
    obtain ⟨z, hz⟩ : ∃ z, xs[j + 1]? = some z := ⟨_, List.getElem?_eq_getElem (by omega)⟩
    have hpast := hnext z hz
    rcases Nat.lt_or_eq_of_le (show j + 1 ≤ i by omega) with h | rfl
    · have horder := getElem?_lt hs hz hx h
      omega
    · obtain rfl : x = z := Option.some.inj (hx.symm.trans hz)
      omega
  exact Nat.le_antisymm (hle hi hj) (hle hj hi)

/-- Among the entries from `base` on that are looked through, the first is reached, and the entry
behind them is not. A step keeps this, and the last step leaves a single entry. -/
theorem halve?_isLastReached (hs : xs.Pairwise (· < ·)) (hsize : 0 < size)
    (hend : base + size ≤ xs.length)
    (hfirst : ∀ x, xs[base]? = some x → x ≤ key)
    (hbehind : ∀ x, xs[base + size]? = some x → key < x) :
    ∃ i, halve? xs key base size = some i ∧ IsLastReached xs key i := by
  induction size using Nat.strongRecOn generalizing base with
  | ind size ih =>
    unfold halve?
    by_cases hone : size ≤ 1
    · obtain rfl : size = 1 := by omega
      have hsome : xs[base]? = some xs[base] := List.getElem?_eq_getElem (by omega)
      exact ⟨base, if_pos hone, ⟨_, hsome, hfirst _ hsome⟩, hbehind⟩
    · have hmid : xs[base + size / 2]? = some xs[base + size / 2] :=
        List.getElem?_eq_getElem (by omega)
      rw [if_neg hone, hmid, Option.bind_some]
      split
      · next hlt =>
        refine ih (size - size / 2) (by omega) (by omega) (by omega) hfirst fun x hx => ?_
        rcases Nat.lt_or_eq_of_le (show base + size / 2 ≤ base + (size - size / 2) by omega)
          with h | h
        · exact Nat.lt_trans hlt (getElem?_lt hs hmid hx h)
        · rw [← h, hmid] at hx
          exact Option.some.inj hx ▸ hlt
      · next hge =>
        refine ih (size - size / 2) (by omega) (by omega) (by omega) (fun x hx => ?_)
          fun x hx => ?_
        · rw [hmid] at hx
          have heq := Option.some.inj hx
          omega
        · apply hbehind
          rwa [show base + size = base + size / 2 + (size - size / 2) by omega]

/-- The search ends at the last entry that is reached, or right behind it. -/
theorem search?_eq_of_isLastReached (hs : xs.Pairwise (· < ·))
    (hfirst : ∀ x, xs[0]? = some x → x ≤ key) (hi : IsLastReached xs key i) :
    search? xs key = some (.ok i) ∨ search? xs key = some (.error (i + 1)) := by
  obtain ⟨⟨x, hx, hle⟩, -⟩ := id hi
  have hlength := (List.getElem?_eq_some_iff.mp hx).1
  have hne : xs.isEmpty = false := by
    rw [List.isEmpty_eq_false_iff]
    exact List.ne_nil_of_length_pos (by omega)
  obtain ⟨j, hj, hlast⟩ := halve?_isLastReached hs (show 0 < xs.length by omega)
    (show 0 + xs.length ≤ xs.length by omega) hfirst (by simp)
  obtain rfl := hlast.unique hs hi
  rw [search?, hne, if_neg Bool.false_ne_true, hj, Option.bind_some, hx, Option.map_some]
  by_cases heq : x = key
  · exact .inl (by rw [if_pos heq])
  · exact .inr (by rw [if_neg heq, if_pos (Nat.lt_of_le_of_ne hle heq)])

end HelpAudit.Ascending
