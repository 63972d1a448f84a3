import Mathlib.Data.List.Induction
import Mathlib.Data.List.Nodup

/-! Lists that grow at the end: elements that have a property, or give something, after the elements
before them, numbered elements and distinct elements. And lists with elements of several kinds, of
which only those of one kind get in each other's way. -/
namespace HelpAudit

/-- Some element has the property after the elements before it. -/
def ExistsAfter {α : Type} (P : List α → α → Prop) (xs : List α) : Prop :=
  ∃ before x after, xs = before ++ x :: after ∧ P before x

variable {α : Type} {P : List α → α → Prop} {xs : List α} {x : α}

theorem not_existsAfter_nil : ¬ExistsAfter P [] := by
  rintro ⟨before, x, after, heq, -⟩
  simp at heq

theorem existsAfter_cons :
    ExistsAfter P (x :: xs) ↔ P [] x ∨ ExistsAfter (fun before => P (x :: before)) xs := by
  constructor
  · rintro ⟨before, y, after, heq, hy⟩
    cases before with
    | nil =>
      obtain ⟨rfl, -⟩ := List.cons.inj heq
      exact .inl hy
    | cons z before =>
      obtain ⟨rfl, hxs⟩ := List.cons.inj heq
      exact .inr ⟨before, y, after, hxs, hy⟩
  · rintro (hx | ⟨before, y, after, rfl, hy⟩)
    · exact ⟨[], x, xs, rfl, hx⟩
    · exact ⟨x :: before, y, after, rfl, hy⟩

theorem existsAfter_concat : ExistsAfter P (xs ++ [x]) ↔ ExistsAfter P xs ∨ P xs x := by
  constructor
  · rintro ⟨before, y, after, heq, hy⟩
    rcases List.eq_nil_or_concat after with rfl | ⟨after, z, rfl⟩
    · obtain ⟨rfl, hxy⟩ := List.append_inj' heq rfl
      obtain rfl := List.singleton_inj.mp hxy
      exact .inr hy
    · rw [List.concat_eq_append, ← List.cons_append, ← List.append_assoc] at heq
      exact .inl ⟨before, y, after, (List.append_inj' heq rfl).1, hy⟩
  · rintro (⟨before, y, after, rfl, hy⟩ | hx)
    · exact ⟨before, y, after ++ [x], by simp, hy⟩
    · exact ⟨xs, x, [], rfl, hx⟩

/-- What each element gives after the elements before it. -/
def filterMapAfter {β : Type} (f : List α → α → Option β) : List α → List β
  | [] => []
  | x :: xs => (f [] x).toList ++ filterMapAfter (fun before => f (x :: before)) xs

theorem filterMapAfter_concat {β : Type} (f : List α → α → Option β) :
    filterMapAfter f (xs ++ [x]) = filterMapAfter f xs ++ (f xs x).toList := by
  induction xs generalizing f with
  | nil => simp [filterMapAfter]
  | cons y xs ih => rw [List.cons_append, filterMapAfter, ih, filterMapAfter, List.append_assoc]

theorem mem_filterMapAfter {β : Type} {f : List α → α → Option β} {y : β} :
    y ∈ filterMapAfter f xs ↔ ExistsAfter (fun before x => f before x = some y) xs := by
  induction xs generalizing f with
  | nil => simp [filterMapAfter, not_existsAfter_nil]
  | cons x xs ih => rw [filterMapAfter, List.mem_append, ih, existsAfter_cons, Option.mem_toList]

theorem map_filterMapAfter {β γ : Type} (f : List α → α → Option β) (g : β → γ) (xs : List α) :
    (filterMapAfter f xs).map g = filterMapAfter (fun before x => (f before x).map g) xs := by
  induction xs generalizing f with
  | nil => rfl
  | cons x xs ih => rw [filterMapAfter, List.map_append, ih, filterMapAfter, Option.toList_map]

/-- What gives the same or nothing gives a part, in the same order. -/
theorem filterMap_sublist_filterMap {β : Type} {f g : α → Option β}
    (h : ∀ x ∈ xs, g x = f x ∨ g x = none) : (xs.filterMap g).Sublist (xs.filterMap f) := by
  induction xs with
  | nil => exact List.nil_sublist _
  | cons x xs ih =>
    have hrest := ih fun y hy => h y (List.mem_cons_of_mem _ hy)
    rw [List.filterMap_cons, List.filterMap_cons]
    rcases h x List.mem_cons_self with heq | hnone
    · rw [heq]
      cases f x with
      | none => exact hrest
      | some y => exact hrest.cons_cons y
    · rw [hnone]
      cases f x with
      | none => exact hrest
      | some y => exact hrest.cons y

theorem getElem?_concat_eq_some_iff {i : Nat} {y : α} :
    (xs ++ [x])[i]? = some y ↔ xs[i]? = some y ∨ i = xs.length ∧ x = y := by
  rcases Nat.lt_trichotomy i xs.length with hlt | rfl | hgt
  · have hne : i ≠ xs.length := by omega
    rw [List.getElem?_append_left hlt]
    simp [hne]
  · simp
  · have hne : i ≠ xs.length := by omega
    have hconcat : (xs ++ [x]).length ≤ i := by
      rw [List.length_append, List.length_singleton]
      omega
    have hle : xs.length ≤ i := by omega
    rw [List.getElem?_eq_none hconcat, List.getElem?_eq_none hle]
    simp [hne]

section Mixed

variable {α σ κ : Type} {step : σ → α → σ} {kind : α → κ}
  (hcomm : ∀ s a b, kind a ≠ kind b → step (step s a) b = step (step s b) a)
include hcomm

/-- An element may be taken before elements of other kinds. -/
theorem foldl_append_cons_of_comm {x : α} {before after : List α}
    (h : ∀ a ∈ before, kind a ≠ kind x) (s : σ) :
    (before ++ x :: after).foldl step s = (before ++ after).foldl step (step s x) := by
  induction before generalizing s with
  | nil => rfl
  | cons a before ih =>
    have ha : kind a ≠ kind x := h a List.mem_cons_self
    show (before ++ x :: after).foldl step (step s a) = _
    rw [ih (fun b hb => h b (List.mem_cons_of_mem _ hb)), hcomm s a x ha]
    rfl

variable [DecidableEq κ]

/-- Where elements of different kinds commute, the order within each kind is all that counts. -/
theorem foldl_eq_of_filter_eq {xs ys : List α}
    (h : ∀ k, xs.filter (kind · = k) = ys.filter (kind · = k)) (s : σ) :
    xs.foldl step s = ys.foldl step s := by
  induction xs generalizing ys s with
  | nil =>
    cases ys with
    | nil => rfl
    | cons y ys => simpa using h (kind y)
  | cons x xs ih =>
    have hx : ys.filter (kind · = kind x) = x :: xs.filter (kind · = kind x) := by
      rw [← h, List.filter_cons_of_pos (by simp)]
    obtain ⟨before, after, rfl, hbefore, -, hafter⟩ := List.filter_eq_cons_iff.mp hx
    have hother : ∀ a ∈ before, kind a ≠ kind x := by simpa using hbefore
    rw [foldl_append_cons_of_comm hcomm hother]
    apply ih
    intro k
    have hk := h k
    rw [List.filter_append] at hk ⊢
    by_cases heq : kind x = k
    · subst heq
      have hnone : before.filter (kind · = kind x) = [] := List.filter_eq_nil_iff.mpr hbefore
      rw [hnone, List.nil_append, hafter]
    · rwa [List.filter_cons_of_neg (by simpa using heq),
        List.filter_cons_of_neg (by simpa using heq)] at hk

end Mixed
variable [BEq α] [LawfulBEq α]

theorem eraseDups_concat (xs : List α) (x : α) :
    (xs ++ [x]).eraseDups = if x ∈ xs then xs.eraseDups else xs.eraseDups ++ [x] := by
  rw [List.eraseDups_append]
  split
  · next h => simp [List.removeAll, h]
  · next h =>
    have hnew : [x].removeAll xs = [x] := by simp [List.removeAll, h]
    rw [hnew]
    rfl

/-- Elements stand in the order in which they first come up. -/
theorem pairwise_idxOf_eraseDups (xs : List α) :
    xs.eraseDups.Pairwise fun a b => xs.idxOf a < xs.idxOf b := by
  induction xs using List.reverseRecOn with
  | nil => simp
  | append_singleton xs x ih =>
    have hkept {a : α} (ha : a ∈ xs.eraseDups) : (xs ++ [x]).idxOf a = xs.idxOf a :=
      List.idxOf_append_of_mem (List.mem_eraseDups.mp ha)
    have hbefore : xs.eraseDups.Pairwise fun a b => (xs ++ [x]).idxOf a < (xs ++ [x]).idxOf b :=
      ih.imp_of_mem fun ha hb hlt => by rwa [hkept ha, hkept hb]
    rw [eraseDups_concat]
    split
    · exact hbefore
    · next hnew =>
      refine List.pairwise_append.mpr ⟨hbefore, List.pairwise_singleton _ _, fun a ha b hb => ?_⟩
      obtain rfl := List.mem_singleton.mp hb
      have hlast : (xs ++ [b]).idxOf b = xs.length := by
        simp [List.idxOf_append_of_notMem hnew]
      rw [hkept ha, hlast]
      exact List.idxOf_lt_length_of_mem (List.mem_eraseDups.mp ha)

theorem nodup_eraseDups (xs : List α) : xs.eraseDups.Nodup := by
  refine (pairwise_idxOf_eraseDups xs).imp fun {a b} hlt heq => ?_
  rw [heq] at hlt
  exact Nat.lt_irrefl _ hlt

end HelpAudit
