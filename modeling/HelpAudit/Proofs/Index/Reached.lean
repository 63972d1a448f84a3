import HelpAudit.Index.Contents
import Mathlib.Algebra.BigOperators.Fin

/-! The walk through a table of contents visits the nodes that the roots lead to, and no others. -/
namespace HelpAudit.Contents

variable {c : Contents}

theorem reaches_of_mem_visit {fuel : Nat} {visited stack : List Nat}
    (hv : ∀ id ∈ visited, Reaches c id) (hs : ∀ id ∈ stack, id < c.nodes.size → Reaches c id) :
    ∀ id ∈ c.visit fuel visited stack, Reaches c id := by
  induction fuel generalizing visited stack with
  | zero => exact hv
  | succ fuel ih =>
    cases stack with
    | nil => exact hv
    | cons id stack =>
      have hrest : ∀ i ∈ stack, i < c.nodes.size → Reaches c i :=
        fun i hi => hs i (List.mem_cons_of_mem _ hi)
      unfold visit
      split
      · exact ih hv hrest
      · next node hnode =>
        split
        · exact ih hv hrest
        · have hid : Reaches c id :=
            hs id List.mem_cons_self (Array.getElem?_eq_some_iff.mp hnode).1
          refine ih (fun i hi => ?_) fun i hi hlt => ?_
          · rcases List.mem_cons.mp hi with rfl | hi
            · exact hid
            · exact hv i hi
          · rcases List.mem_append.mp hi with hi | hi
            · exact .child hid hnode hi hlt
            · exact hrest i hi hlt

/-- The children of a node; a number that is no node's has none. -/
def childrenOf (c : Contents) (id : Nat) : List Nat := (c.nodes[id]?.map (·.children)).getD []

theorem mem_childrenOf {id child : Nat} :
    child ∈ c.childrenOf id ↔ ∃ node, c.nodes[id]? = some node ∧ child ∈ node.children := by
  unfold childrenOf
  cases c.nodes[id]? with
  | none => simp
  | some node => simp

theorem childrenOf_of_getElem? {id : Nat} {node : Node} (h : c.nodes[id]? = some node) :
    c.childrenOf id = node.children := by
  rw [childrenOf, h]
  rfl

/-- The number of children that the nodes not yet visited can put on the stack. -/
def waiting (c : Contents) (visited : List Nat) : Nat :=
  ∑ id ∈ Finset.range c.nodes.size \ visited.toFinset, (c.childrenOf id).length

theorem waiting_nil (c : Contents) : c.waiting [] = c.edgeCount := by
  have hget : ∀ i : Fin c.nodes.toList.length,
      (c.childrenOf i).length = c.nodes.toList[i].children.length := by
    intro i
    have hi : c.nodes[(i : Nat)]? = some c.nodes.toList[i] := by simp
    rw [childrenOf_of_getElem? hi]
  calc c.waiting []
    _ = ∑ id ∈ Finset.range c.nodes.toList.length, (c.childrenOf id).length := by
      rw [waiting, List.toFinset_nil, Finset.sdiff_empty, Array.length_toList]
    _ = ∑ i : Fin c.nodes.toList.length, c.nodes.toList[i].children.length := by
      rw [Finset.sum_range]
      exact Finset.sum_congr rfl fun i _ => hget i
    _ = (c.nodes.toList.map (·.children.length)).sum :=
      Fin.sum_univ_fun_getElem c.nodes.toList fun n => n.children.length
    _ = c.edgeCount := by rw [edgeCount, List.length_flatMap]

theorem waiting_cons {id : Nat} {visited : List Nat} {node : Node}
    (hnode : c.nodes[id]? = some node) (hid : id ∉ visited) :
    node.children.length + c.waiting (id :: visited) = c.waiting visited := by
  have hmem : id ∈ Finset.range c.nodes.size \ visited.toFinset := by
    simp [(Array.getElem?_eq_some_iff.mp hnode).1, hid]
  rw [waiting, List.toFinset_cons, Finset.sdiff_insert, ← childrenOf_of_getElem? hnode]
  exact Finset.add_sum_erase _ (fun i => (c.childrenOf i).length) hmem

theorem fuel_of_visit {fuel top : Nat} {visited stack : List Nat} {node : Node}
    (hf : stack.length + 1 + c.waiting visited ≤ fuel + 1) (hnode : c.nodes[top]? = some node)
    (hseen : ¬visited.contains top = true) :
    (node.children ++ stack).length + c.waiting (top :: visited) ≤ fuel := by
  have hw := waiting_cons hnode fun hin => hseen (List.contains_iff_mem.mpr hin)
  rw [List.length_append]
  omega

theorem mem_visit_of_mem_visited {fuel : Nat} {visited stack : List Nat} {id : Nat}
    (h : id ∈ visited) : id ∈ c.visit fuel visited stack := by
  induction fuel generalizing visited stack with
  | zero => exact h
  | succ fuel ih =>
    cases stack with
    | nil => exact h
    | cons top stack =>
      unfold visit
      split
      · exact ih h
      · split
        · exact ih h
        · exact ih (List.mem_cons_of_mem _ h)

theorem mem_visit_of_mem_stack {fuel : Nat} {visited stack : List Nat}
    (hf : stack.length + c.waiting visited ≤ fuel) {id : Nat} (hid : id ∈ stack)
    (hlt : id < c.nodes.size) : id ∈ c.visit fuel visited stack := by
  induction fuel generalizing visited stack with
  | zero =>
    obtain rfl : stack = [] := List.eq_nil_of_length_eq_zero (by omega)
    simp at hid
  | succ fuel ih =>
    cases stack with
    | nil => simp at hid
    | cons top stack =>
      rw [List.length_cons] at hf
      unfold visit
      split
      · next hnone =>
        rcases List.mem_cons.mp hid with rfl | hid
        · exact absurd hlt (Array.getElem?_eq_none_iff.mp hnone).not_gt
        · exact ih (by omega) hid
      · next node hnode =>
        split
        · next hseen =>
          rcases List.mem_cons.mp hid with rfl | hid
          · exact mem_visit_of_mem_visited (List.contains_iff_mem.mp hseen)
          · exact ih (by omega) hid
        · next hseen =>
          rcases List.mem_cons.mp hid with rfl | hid
          · exact mem_visit_of_mem_visited List.mem_cons_self
          · exact ih (fuel_of_visit hf hnode hseen) (List.mem_append_right _ hid)

/-- Every child of a visited node was visited or waits on the stack. -/
def Frontier (c : Contents) (visited stack : List Nat) : Prop :=
  ∀ p ∈ visited, ∀ id ∈ c.childrenOf p, id < c.nodes.size → id ∈ visited ∨ id ∈ stack

theorem Frontier.skip {visited stack : List Nat} {top : Nat}
    (h : Frontier c visited (top :: stack)) (hdone : top < c.nodes.size → top ∈ visited) :
    Frontier c visited stack := by
  intro p hp id hc hlt
  rcases h p hp id hc hlt with hin | hin
  · exact .inl hin
  · rcases List.mem_cons.mp hin with rfl | hin
    · exact .inl (hdone hlt)
    · exact .inr hin

theorem Frontier.expand {visited stack : List Nat} {top : Nat} {node : Node}
    (h : Frontier c visited (top :: stack)) (hnode : c.nodes[top]? = some node) :
    Frontier c (top :: visited) (node.children ++ stack) := by
  intro p hp id hc hlt
  rcases List.mem_cons.mp hp with rfl | hp
  · rw [childrenOf_of_getElem? hnode] at hc
    exact .inr (List.mem_append_left _ hc)
  · rcases h p hp id hc hlt with hin | hin
    · exact .inl (List.mem_cons_of_mem _ hin)
    · rcases List.mem_cons.mp hin with rfl | hin
      · exact .inl List.mem_cons_self
      · exact .inr (List.mem_append_right _ hin)

/-- A walk with enough fuel ends when nothing waits any more. -/
theorem frontier_visit {fuel : Nat} {visited stack : List Nat}
    (hf : stack.length + c.waiting visited ≤ fuel) (h : Frontier c visited stack) :
    Frontier c (c.visit fuel visited stack) [] := by
  induction fuel generalizing visited stack with
  | zero =>
    obtain rfl : stack = [] := List.eq_nil_of_length_eq_zero (by omega)
    exact h
  | succ fuel ih =>
    cases stack with
    | nil => exact h
    | cons top stack =>
      rw [List.length_cons] at hf
      unfold visit
      split
      · next hnone =>
        have hdone : top < c.nodes.size → top ∈ visited :=
          fun hlt => absurd hlt (Array.getElem?_eq_none_iff.mp hnone).not_gt
        exact ih (by omega) (h.skip hdone)
      · next node hnode =>
        split
        · next hseen => exact ih (by omega) (h.skip fun _ => List.contains_iff_mem.mp hseen)
        · next hseen => exact ih (fuel_of_visit hf hnode hseen) (h.expand hnode)

theorem mem_reached_iff {id : Nat} : id ∈ c.reached ↔ Reaches c id := by
  refine ⟨reaches_of_mem_visit (by simp) (fun _ hi hlt => .root hi hlt) id, fun h => ?_⟩
  have hf : c.roots.length + c.waiting [] ≤ c.roots.length + c.edgeCount := by rw [waiting_nil]
  have hclosed : Frontier c c.reached [] := frontier_visit hf (by simp [Frontier])
  induction h with
  | root hr hlt => exact mem_visit_of_mem_stack hf hr hlt
  | child _ hnode hc hlt ih =>
    exact (hclosed _ ih _ (mem_childrenOf.mpr ⟨_, hnode, hc⟩) hlt).resolve_right List.not_mem_nil

/-- A file is reached when it is that of a node to which a root leads. -/
theorem mem_reachedFiles_iff {file : String} :
    file ∈ c.reachedFiles ↔
      ∃ id node, Reaches c id ∧ c.nodes[id]? = some node ∧ node.file = file := by
  unfold reachedFiles
  rw [List.mem_filterMap]
  constructor
  · rintro ⟨id, hid, hf⟩
    obtain ⟨node, hnode, rfl⟩ := Option.map_eq_some_iff.mp hf
    exact ⟨id, node, mem_reached_iff.mp hid, hnode, rfl⟩
  · rintro ⟨id, node, hid, hnode, rfl⟩
    exact ⟨id, mem_reached_iff.mpr hid, by rw [hnode, Option.map_some]⟩

end HelpAudit.Contents
