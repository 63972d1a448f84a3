import HelpAudit.Proofs.NameMap
import HelpAudit.Source.Basic

/-! Names in ascending order. Sorting names, and dropping those that come again, gives each name
once in strictly ascending order. -/
namespace HelpAudit

variable {names : List String} {name : String}

@[simp] theorem mem_sortNames : name ∈ sortNames names ↔ name ∈ names := List.mem_mergeSort

theorem pairwise_sortNames (names : List String) : (sortNames names).Pairwise (· ≤ ·) := by
  have hsorted : (sortNames names).Pairwise fun a b => (!decide (b < a)) = true :=
    List.pairwise_mergeSort
      (fun a b c hab hbc => by
        simp only [Bool.not_eq_true', decide_eq_false_iff_not, Std.not_lt] at hab hbc ⊢
        exact String.le_trans hab hbc)
      (fun a b => by
        simp only [Bool.or_eq_true, Bool.not_eq_true', decide_eq_false_iff_not, Std.not_lt]
        exact Std.le_total) names
  exact hsorted.imp fun h => by
    simpa only [Bool.not_eq_true', decide_eq_false_iff_not, Std.not_lt] using h

/-- Names that are there once stand in strictly ascending order when they are sorted. -/
theorem pairwise_sortNames_of_nodup (h : names.Nodup) : (sortNames names).Pairwise (· < ·) := by
  have hnodup : (sortNames names).Nodup := (List.mergeSort_perm _ _).nodup_iff.mpr h
  exact (pairwise_sortNames names).imp₂ (fun _ _ hle hne => Std.lt_of_le_of_ne hle hne) hnodup

/-- A name gives way to the same name behind it. -/
theorem eraseReps_cons_cons (a b : String) (names : List String) :
    (a :: b :: names).eraseReps =
      if a = b then (a :: names).eraseReps else a :: (b :: names).eraseReps := by
  have hkept : ∀ (names : List String) (a : String) (kept : List String),
      List.eraseRepsBy.loop (· == ·) a names kept =
        kept.reverse ++ List.eraseRepsBy.loop (· == ·) a names [] := by
    intro names
    induction names with
    | nil => simp [List.eraseRepsBy.loop]
    | cons c names ih =>
      intro a kept
      rw [List.eraseRepsBy.loop, List.eraseRepsBy.loop]
      split
      · exact ih a kept
      · rw [ih c (a :: kept), ih c [a]]
        simp
  change List.eraseRepsBy.loop (· == ·) a (b :: names) [] = _
  rw [List.eraseRepsBy.loop]
  by_cases h : a = b
  · rw [if_pos h, h, beq_self_eq_true]
    rfl
  · rw [if_neg h, beq_false_of_ne h]
    exact hkept names b [a]

@[simp] theorem mem_eraseReps : name ∈ names.eraseReps ↔ name ∈ names := by
  cases names with
  | nil => rfl
  | cons a names =>
    induction names generalizing a with
    | nil => rfl
    | cons b names ih =>
      rw [eraseReps_cons_cons]
      split
      · next h =>
        rw [ih, h]
        simp
      · rw [List.mem_cons, ih, List.mem_cons (l := b :: names)]

theorem pairwise_eraseReps (h : names.Pairwise (· ≤ ·)) : names.eraseReps.Pairwise (· < ·) := by
  cases names with
  | nil => exact List.Pairwise.nil
  | cons a names =>
    induction names generalizing a with
    | nil => exact List.pairwise_singleton _ _
    | cons b names ih =>
      obtain ⟨ha, hb⟩ := List.pairwise_cons.mp h
      rw [eraseReps_cons_cons]
      split
      · next heq => exact ih a (heq ▸ hb)
      · next hne =>
        refine List.pairwise_cons.mpr ⟨fun c hc => ?_, ih b hb⟩
        have hab : a < b := Std.lt_of_le_of_ne (ha b List.mem_cons_self) hne
        rcases List.mem_cons.mp (mem_eraseReps.mp hc) with rfl | hc
        · exact hab
        · exact Std.lt_of_lt_of_le hab ((List.pairwise_cons.mp hb).1 c hc)

end HelpAudit
