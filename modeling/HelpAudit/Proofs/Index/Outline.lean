import HelpAudit.Index.Contents
import Mathlib.Data.List.Induction

/-! Forests as tables of contents. A forest is listed in preorder as rows that name the row of their
parent, and pushing the rows one by one gives the table that the rows describe. -/
namespace HelpAudit

/-- A table of contents as a tree. -/
inductive Outline where
  | node (topic file : String) (caption : Option String) (children : List Outline)

namespace Contents

/-- A node that names its parent instead of its children. -/
structure Row where
  parent : Option Nat
  topic : String
  file : String
  caption : Option String
  deriving DecidableEq

def Row.leaf (r : Row) : Node := ⟨r.topic, r.file, r.caption, []⟩

/-- Each row's parent, if it has one, stands before it; the first row has the number `next`. -/
def Ordered (next : Nat) : List Row → Prop
  | [] => True
  | r :: rs => (∀ p ∈ r.parent, p < next) ∧ Ordered (next + 1) rs

/-- The numbers of the rows below `parent`, or of those without a parent. -/
def below (rows : List Row) (parent : Option Nat) : List Nat :=
  (rows.zipIdx.filter (·.1.parent = parent)).map (·.2)

/-- The table that the rows describe: every node's children are the rows that name it. -/
def ofRows (rows : List Row) : Contents where
  nodes := (rows.mapIdx fun k r => { r.leaf with children := below rows (some k) }).toArray
  roots := below rows none

def pushAll (c : Contents) (rows : List Row) : Contents :=
  rows.foldl (fun c r => c.push r.parent r.leaf) c

theorem size_push (c : Contents) (parent : Option Nat) (node : Node) :
    (c.push parent node).nodes.size = c.nodes.size + 1 := by
  unfold push
  cases parent with
  | none => simp
  | some p =>
    dsimp only
    split
    · simp
    · simp

theorem pushAll_append (c : Contents) (xs ys : List Row) :
    c.pushAll (xs ++ ys) = (c.pushAll xs).pushAll ys :=
  List.foldl_append

theorem size_pushAll (c : Contents) (rows : List Row) :
    (c.pushAll rows).nodes.size = c.nodes.size + rows.length := by
  induction rows generalizing c with
  | nil => rfl
  | cons r rows ih =>
    have h := ih (c.push r.parent r.leaf)
    rw [size_push] at h
    rw [List.length_cons, pushAll, List.foldl_cons, ← pushAll, h]
    omega

theorem ordered_append {next : Nat} {xs ys : List Row} :
    Ordered next (xs ++ ys) ↔ Ordered next xs ∧ Ordered (next + xs.length) ys := by
  induction xs generalizing next with
  | nil => simp [Ordered]
  | cons x xs ih =>
    have hlen : next + (x :: xs).length = next + 1 + xs.length := by
      rw [List.length_cons]
      omega
    rw [List.cons_append, Ordered, Ordered, ih, hlen, and_assoc]

theorem Ordered.parent_lt {next : Nat} {rows : List Row} (h : Ordered next rows) {k p : Nat}
    {r : Row} (hr : rows[k]? = some r) (hp : r.parent = some p) : p < next + k := by
  induction rows generalizing next k with
  | nil => simp at hr
  | cons x rows ih =>
    cases k with
    | zero =>
      obtain rfl := Option.some.inj hr
      exact h.1 p hp
    | succ k =>
      have hlt := ih h.2 hr
      omega

theorem mem_below {rows : List Row} {parent : Option Nat} {k : Nat} :
    k ∈ below rows parent ↔ ∃ r, rows[k]? = some r ∧ r.parent = parent := by
  rw [below, List.mem_map]
  constructor
  · rintro ⟨⟨r, i⟩, hm, rfl⟩
    obtain ⟨hz, hp⟩ := List.mem_filter.mp hm
    exact ⟨r, List.mk_mem_zipIdx_iff_getElem?.mp hz, of_decide_eq_true hp⟩
  · rintro ⟨r, hr, hp⟩
    have hz : (r, k) ∈ rows.zipIdx := List.mk_mem_zipIdx_iff_getElem?.mpr hr
    exact ⟨(r, k), List.mem_filter.mpr ⟨hz, decide_eq_true hp⟩, rfl⟩

theorem mem_below_iff_parents {rows : List Row} {parent : Option Nat} {k : Nat} :
    k ∈ below rows parent ↔ (rows.map (·.parent))[k]? = some parent := by
  rw [mem_below, List.getElem?_map, Option.map_eq_some_iff]

theorem below_ascending (rows : List Row) (parent : Option Nat) :
    (below rows parent).Pairwise (· < ·) := by
  have hz : (rows.zipIdx.map (·.2)).Pairwise (· < ·) := by
    rw [List.zipIdx_map_snd]
    exact List.pairwise_lt_range'
  exact hz.sublist (List.filter_sublist.map _)

theorem below_append (rows : List Row) (r : Row) (parent : Option Nat) :
    below (rows ++ [r]) parent =
      below rows parent ++ if r.parent = parent then [rows.length] else [] := by
  rw [below, List.zipIdx_append, List.filter_append, List.map_append, ← below,
    List.zipIdx_singleton, Nat.zero_add]
  split
  · next h => simp [h]
  · next h => simp [h]

@[simp] theorem size_ofRows (rows : List Row) : (ofRows rows).nodes.size = rows.length := by
  simp [ofRows]

theorem getElem?_ofRows (rows : List Row) (k : Nat) :
    (ofRows rows).nodes[k]? =
      rows[k]?.map fun r => { r.leaf with children := below rows (some k) } := by
  simp [ofRows]

theorem exists_row_of_mem_nodes {rows : List Row} {n : Node} (h : n ∈ (ofRows rows).nodes.toList) :
    ∃ r ∈ rows, ∃ k, n = { r.leaf with children := below rows (some k) } := by
  obtain ⟨k, hk⟩ := List.mem_iff_getElem?.mp h
  rw [Array.getElem?_toList, getElem?_ofRows] at hk
  obtain ⟨r, hr, rfl⟩ := Option.map_eq_some_iff.mp hk
  exact ⟨r, List.mem_of_getElem? hr, k, rfl⟩

/-- What the nodes share with their rows. -/
theorem map_nodes_ofRows {α : Type} {f : Node → α} {g : Row → α}
    (h : ∀ r children, f { r.leaf with children := children } = g r) (rows : List Row) :
    (ofRows rows).nodes.toList.map f = rows.map g := by
  apply List.ext_getElem?
  intro k
  rw [List.getElem?_map, List.getElem?_map, Array.getElem?_toList, getElem?_ofRows, Option.map_map]
  congr 1
  funext r
  exact h r _

theorem push_below {c : Contents} {p : Nat} (hp : p < c.nodes.size) (node : Node) :
    c.push (some p) node =
      ⟨(c.nodes.push node).modify p (·.addChild c.nodes.size), c.roots⟩ := by
  have hlt : p < (c.nodes.push node).size := by
    rw [Array.size_push]
    omega
  exact if_pos hlt

/-- What a push below a node of the table, or as a root, does to each node. -/
theorem getElem?_push {c : Contents} {parent : Option Nat} (h : ∀ p ∈ parent, p < c.nodes.size)
    (node : Node) (k : Nat) :
    (c.push parent node).nodes[k]? =
      if k = c.nodes.size then some node
      else if parent = some k then c.nodes[k]?.map (·.addChild c.nodes.size)
      else c.nodes[k]? := by
  cases parent with
  | none => simp [push, Array.getElem?_push]
  | some p =>
    have hp : p < c.nodes.size := h p rfl
    rw [push_below hp, Array.getElem?_modify, Array.getElem?_push]
    by_cases hk : k = c.nodes.size
    · have hne : p ≠ k := by omega
      rw [if_neg hne, if_pos hk, if_pos hk]
    · rw [if_neg hk, if_neg hk]
      by_cases hpk : p = k
      · rw [if_pos hpk, if_pos (congrArg some hpk)]
      · rw [if_neg hpk, if_neg (fun he => hpk (Option.some.inj he))]

theorem roots_push {c : Contents} {parent : Option Nat} (h : ∀ p ∈ parent, p < c.nodes.size)
    (node : Node) :
    (c.push parent node).roots = c.roots ++ if parent = none then [c.nodes.size] else [] := by
  cases parent with
  | none => rfl
  | some p => simp [push_below (h p rfl)]

theorem ext_getElem? {c c' : Contents} (hn : ∀ k : Nat, c.nodes[k]? = c'.nodes[k]?)
    (hr : c.roots = c'.roots) : c = c' := by
  obtain ⟨nodes, roots⟩ := c
  obtain ⟨nodes', roots'⟩ := c'
  have hnodes : nodes = nodes' := Array.ext_getElem? hn
  have hroots : roots = roots' := hr
  rw [hnodes, hroots]

/-- Nothing lies below the last row. -/
theorem below_last {rows : List Row} {r : Row} (ho : Ordered 0 (rows ++ [r])) :
    below (rows ++ [r]) (some rows.length) = [] := by
  refine List.eq_nil_iff_forall_not_mem.mpr fun k hk => ?_
  obtain ⟨s, hs, hp⟩ := mem_below.mp hk
  have hlt := ho.parent_lt hs hp
  have hle := (List.getElem?_eq_some_iff.mp hs).1
  rw [List.length_append, List.length_singleton] at hle
  omega

/-- A row whose parent stands before it describes a push. -/
theorem ofRows_append {rows : List Row} {r : Row} (ho : Ordered 0 (rows ++ [r])) :
    ofRows (rows ++ [r]) = (ofRows rows).push r.parent r.leaf := by
  have hparent : ∀ p ∈ r.parent, p < (ofRows rows).nodes.size := by
    intro p hp
    have hlt := ho.parent_lt List.getElem?_concat_length hp
    rw [size_ofRows]
    omega
  apply ext_getElem?
  · intro k
    rw [getElem?_push hparent, getElem?_ofRows, getElem?_ofRows, size_ofRows]
    rcases Nat.lt_trichotomy k rows.length with hlt | heq | hgt
    · have hne : k ≠ rows.length := by omega
      rw [if_neg hne, List.getElem?_append_left hlt, below_append]
      by_cases hp : r.parent = some k
      · rw [if_pos hp, if_pos hp, Option.map_map]
        rfl
      · rw [if_neg hp, if_neg hp, List.append_nil]
    · rw [heq, if_pos rfl, List.getElem?_concat_length, Option.map_some, below_last ho]
      rfl
    · have hne : k ≠ rows.length := by omega
      have hnone : (rows ++ [r])[k]? = none := by
        apply List.getElem?_eq_none
        rw [List.length_append, List.length_singleton]
        omega
      have hrows : rows[k]? = none := List.getElem?_eq_none (by omega)
      rw [if_neg hne, hnone, hrows]
      simp
  · rw [roots_push hparent, size_ofRows]
    exact below_append rows r none

/-- Rows in order describe what pushing them makes. -/
theorem pushAll_empty {rows : List Row} (h : Ordered 0 rows) : empty.pushAll rows = ofRows rows := by
  induction rows using List.reverseRecOn with
  | nil => rfl
  | append_singleton rows r ih =>
    rw [pushAll_append, ih (ordered_append.mp h).1, ofRows_append h]
    rfl

end Contents

namespace Outline

open Contents

mutual
/-- The rows of an outline below the row `above`; its own row has the number `next`. -/
def rows (above : Option Nat) (next : Nat) : Outline → List Row
  | .node topic file caption children =>
    ⟨above, topic, file, caption⟩ :: rowsAll (some next) (next + 1) children

def rowsAll (above : Option Nat) (next : Nat) : List Outline → List Row
  | [] => []
  | o :: os => rows above next o ++ rowsAll above (next + (rows above next o).length) os
end

theorem rowsAll_append (above : Option Nat) (next : Nat) (os os' : List Outline) :
    rowsAll above next (os ++ os') =
      rowsAll above next os ++ rowsAll above (next + (rowsAll above next os).length) os' := by
  induction os generalizing next with
  | nil => simp [rowsAll]
  | cons o os ih =>
    rw [List.cons_append, rowsAll, rowsAll, ih, List.append_assoc, List.length_append,
      Nat.add_assoc]

mutual
theorem ordered_rows {above : Option Nat} {next : Nat} (h : ∀ p ∈ above, p < next) :
    ∀ o : Outline, Ordered next (rows above next o)
  | .node topic file caption children => by
    have hself : ∀ p ∈ some next, p < next + 1 := by
      intro p hp
      have heq : next = p := Option.some.inj hp
      omega
    rw [rows]
    exact ⟨h, ordered_rowsAll hself children⟩

theorem ordered_rowsAll {above : Option Nat} {next : Nat} (h : ∀ p ∈ above, p < next) :
    ∀ os : List Outline, Ordered next (rowsAll above next os)
  | [] => by
    rw [rowsAll]
    trivial
  | o :: os => by
    have hlater : ∀ p ∈ above, p < next + (rows above next o).length := by
      intro p hp
      have hlt := h p hp
      omega
    rw [rowsAll, ordered_append]
    exact ⟨ordered_rows h o, ordered_rowsAll hlater os⟩
end

/-- The preorder flattening of a forest. -/
def flatten (os : List Outline) : Contents := ofRows (rowsAll none 0 os)

theorem pushAll_rowsAll (os : List Outline) : empty.pushAll (rowsAll none 0 os) = flatten os :=
  pushAll_empty (ordered_rowsAll (by simp) os)

end Outline

end HelpAudit
