import HelpAudit.Index.Manifest
import HelpAudit.Proofs.Index.Outline

/-! Promotion: entries without a file give way to their children, and each entry that stays lies
below the nearest of the entries above it that stays. -/
namespace HelpAudit.Index

open Contents (Row)

namespace Entry

mutual
/-- The outlines that an entry leaves; one whose topic has no file leaves those of its children. -/
def promote (file? : String → Option String) : Entry → List Outline
  | .node topic caption children =>
    match file? topic with
    | some file => [.node topic file caption (promoteAll file? children)]
    | none => promoteAll file? children

def promoteAll (file? : String → Option String) : List Entry → List Outline
  | [] => []
  | e :: es => promote file? e ++ promoteAll file? es
end

/-- An entry as the preorder listing of all entries shows it. `above` has the places in the listing
of the entries it lies below, the innermost first. -/
structure Line where
  topic : String
  caption : Option String
  above : List Nat

mutual
/-- The lines of an entry whose own line has the place `next`. -/
def lines (above : List Nat) (next : Nat) : Entry → List Line
  | .node topic caption children =>
    ⟨topic, caption, above⟩ :: linesAll (next :: above) (next + 1) children

def linesAll (above : List Nat) (next : Nat) : List Entry → List Line
  | [] => []
  | e :: es => lines above next e ++ linesAll above (next + (lines above next e).length) es
end

/-- The preorder listing of the entries at all depths. -/
def listing (es : List Entry) : List Line := linesAll [] 0 es

namespace Line

variable (file? : String → Option String)

def known (l : Line) : Bool := (file? l.topic).isSome

/-- Numbers the lines whose topic has a file. -/
def numbers (next : Nat) : List Line → List (Option Nat)
  | [] => []
  | l :: ls => if l.known file? then some next :: numbers (next + 1) ls else none :: numbers next ls

/-- The row of a line whose topic has a file: its parent is the nearest line above with a number. -/
def row? (number? : Nat → Option Nat) (l : Line) : Option Row :=
  (file? l.topic).map fun file => ⟨l.above.findSome? number?, l.topic, file, l.caption⟩

theorem length_numbers (next : Nat) (ls : List Line) : (numbers file? next ls).length = ls.length := by
  induction ls generalizing next with
  | nil => rfl
  | cons l ls ih =>
    rw [numbers]
    split
    · rw [List.length_cons, List.length_cons, ih]
    · rw [List.length_cons, List.length_cons, ih]

theorem length_rows (number? : Nat → Option Nat) (ls : List Line) :
    (ls.filterMap (row? file? number?)).length = ls.countP (known file?) := by
  induction ls with
  | nil => rfl
  | cons l ls ih =>
    rw [List.filterMap_cons, List.countP_cons, ← ih, row?, known]
    cases file? l.topic with
    | none => rfl
    | some file => rfl

theorem numbers_append (next : Nat) (xs ys : List Line) :
    numbers file? next (xs ++ ys) =
      numbers file? next xs ++ numbers file? (next + xs.countP (known file?)) ys := by
  induction xs generalizing next with
  | nil => rfl
  | cons x xs ih =>
    rw [List.cons_append, numbers, numbers, List.countP_cons]
    split
    · rw [ih, List.cons_append, Nat.add_right_comm, Nat.add_assoc]
    · rw [ih, List.cons_append, Nat.add_zero]

/-- The number of a line is its place among the lines whose topic has a file. -/
theorem getElem?_filter_of_numbers {next i k : Nat} {ls : List Line}
    (h : (numbers file? next ls)[i]? = some (some k)) :
    next ≤ k ∧ (ls.filter (known file?))[k - next]? = ls[i]? := by
  induction ls generalizing next i with
  | nil => simp [numbers] at h
  | cons l ls ih =>
    rw [numbers] at h
    split at h
    · next hl =>
      rw [List.filter_cons_of_pos hl]
      cases i with
      | zero =>
        have heq : next = k := Option.some.inj (Option.some.inj h)
        simp [heq]
      | succ i =>
        obtain ⟨hle, hk⟩ := ih h
        have hsub : k - next = k - (next + 1) + 1 := by omega
        rw [hsub, List.getElem?_cons_succ, List.getElem?_cons_succ, hk]
        exact ⟨by omega, rfl⟩
    · next hl =>
      rw [List.filter_cons_of_neg hl]
      cases i with
      | zero => cases h
      | succ i => exact ih h

end Line

section
variable {file? : String → Option String} {number? : Nat → Option Nat}

mutual
/-- Promotion lists the entries that stay in their order, each below the nearest entry above it
that stays. -/
theorem rowsAll_promote {above : List Nat} {place next : Nat} : ∀ e : Entry,
    (List.range' place (lines above place e).length).map number? =
      Line.numbers file? next (lines above place e) →
    Outline.rowsAll (above.findSome? number?) next (promote file? e) =
      (lines above place e).filterMap (Line.row? file? number?)
  | .node topic caption children => by
    intro h
    rw [lines, List.length_cons, List.range'_succ, List.map_cons, Line.numbers, Line.known] at h
    rw [promote, lines, List.filterMap_cons, Line.row?]
    cases hf : file? topic with
    | some file =>
      simp only [hf, Option.isSome_some, if_true] at h
      obtain ⟨hplace, hrest⟩ := List.cons.inj h
      have habove : (place :: above).findSome? number? = some next := by
        rw [List.findSome?_cons, hplace]
      have ih := rowsAll_promoteAll children hrest
      rw [habove] at ih
      simp only [Outline.rowsAll, Outline.rows, Option.map_some, List.append_nil, ih]
    | none =>
      simp only [hf, Option.isSome_none, Bool.false_eq_true, if_false] at h
      obtain ⟨hplace, hrest⟩ := List.cons.inj h
      have habove : (place :: above).findSome? number? = above.findSome? number? := by
        rw [List.findSome?_cons, hplace]
      have ih := rowsAll_promoteAll children hrest
      rw [habove] at ih
      exact ih

theorem rowsAll_promoteAll {above : List Nat} {place next : Nat} : ∀ es : List Entry,
    (List.range' place (linesAll above place es).length).map number? =
      Line.numbers file? next (linesAll above place es) →
    Outline.rowsAll (above.findSome? number?) next (promoteAll file? es) =
      (linesAll above place es).filterMap (Line.row? file? number?)
  | [] => fun _ => rfl
  | e :: es => by
    intro h
    rw [linesAll, List.length_append, ← List.range'_append_1, List.map_append,
      Line.numbers_append] at h
    obtain ⟨hfirst, hrest⟩ := List.append_inj h (by
      rw [List.length_map, List.length_range', Line.length_numbers])
    have ih := rowsAll_promote e hfirst
    rw [promoteAll, linesAll, Outline.rowsAll_append, ih, Line.length_rows,
      rowsAll_promoteAll es hrest, List.filterMap_append]
end

/-- What holds of the rows holds of the lines whose topic has a file. -/
theorem map_rows {α : Type} {f : Row → α} {g : Line → α}
    (h : ∀ l r, l.row? file? number? = some r → f r = g l) (ls : List Line) :
    (ls.filterMap (Line.row? file? number?)).map f = (ls.filter (Line.known file?)).map g := by
  induction ls with
  | nil => rfl
  | cons l ls ih =>
    have hl := h l
    rw [Line.row?] at hl
    rw [List.filterMap_cons, List.filter_cons, Line.row?, Line.known]
    cases hf : file? l.topic with
    | none => simpa using ih
    | some file =>
      have hrow := hl _ (by rw [hf, Option.map_some])
      simp [ih, hrow]

end

section
variable (file? : String → Option String) (es : List Entry)

/-- The entries that stay, in preorder. -/
def kept : List Line := (listing es).filter (Line.known file?)

/-- The number, among the entries that stay, of the one at a place of the listing. -/
def number? (place : Nat) : Option Nat := (Line.numbers file? 0 (listing es))[place]?.join

theorem getElem?_kept_of_number? {place k : Nat} (h : number? file? es place = some k) :
    (kept file? es)[k]? = (listing es)[place]? :=
  (Line.getElem?_filter_of_numbers file? (Option.join_eq_some_iff.mp h)).2

/-- The number of the nearest entry above that stays. -/
def nearest? (l : Line) : Option Nat := l.above.findSome? (number? file? es)

theorem map_number? :
    (List.range' 0 (listing es).length).map (number? file? es) =
      Line.numbers file? 0 (listing es) := by
  apply List.ext_getElem
  · rw [List.length_map, List.length_range', Line.length_numbers]
  · intro i h₁ h₂
    have hi : (Line.numbers file? 0 (listing es))[i]? =
        some (Line.numbers file? 0 (listing es))[i] := List.getElem?_eq_getElem h₂
    rw [List.getElem_map, List.getElem_range', Nat.zero_add, Nat.one_mul, number?, hi]
    rfl

theorem rows_promoteAll :
    Outline.rowsAll none 0 (promoteAll file? es) =
      (listing es).filterMap (Line.row? file? (number? file? es)) :=
  rowsAll_promoteAll es (map_number? file? es)

theorem parents_promoteAll :
    (Outline.rowsAll none 0 (promoteAll file? es)).map (·.parent) =
      (kept file? es).map (nearest? file? es) := by
  rw [rows_promoteAll, kept]
  refine map_rows (fun l r h => ?_) _
  obtain ⟨file, -, rfl⟩ := Option.map_eq_some_iff.mp h
  rfl

theorem mem_below_promoteAll (parent : Option Nat) (k : Nat) :
    k ∈ Contents.below (Outline.rowsAll none 0 (promoteAll file? es)) parent ↔
      ∃ l, (kept file? es)[k]? = some l ∧ nearest? file? es l = parent := by
  rw [Contents.mem_below_iff_parents, parents_promoteAll, List.getElem?_map,
    Option.map_eq_some_iff]

/-- An entry that stays comes after the nearest entry above it that stays. -/
theorem nearest?_lt {k p : Nat} {l : Line} (hl : (kept file? es)[k]? = some l)
    (hp : nearest? file? es l = some p) : p < k := by
  obtain ⟨r, hr, hrp⟩ := Contents.mem_below.mp ((mem_below_promoteAll file? es (some p) k).mpr
    ⟨l, hl, hp⟩)
  have hlt := (Outline.ordered_rowsAll (by simp) (promoteAll file? es)).parent_lt hr hrp
  rwa [Nat.zero_add] at hlt

end

end Entry

open Entry

/-- A table of contents is the preorder flattening of the promoted entries: node `k` is the `k`-th
entry whose topic has a file, and it lies below the nearest entry above it that stays. -/
structure Promoted (file? : String → Option String) (es : List Entry) (c : Contents) : Prop where
  flattened : c = Outline.flatten (promoteAll file? es)
  nodes : c.nodes.toList.map (fun n => (n.topic, n.caption)) =
    (kept file? es).map fun l => (l.topic, l.caption)
  file : ∀ n ∈ c.nodes.toList, file? n.topic = some n.file
  numbered : ∀ {place k}, number? file? es place = some k →
    (kept file? es)[k]? = (listing es)[place]?
  nearest_lt : ∀ {k l p}, (kept file? es)[k]? = some l → nearest? file? es l = some p → p < k
  mem_roots_iff : ∀ k, k ∈ c.roots ↔
    ∃ l, (kept file? es)[k]? = some l ∧ nearest? file? es l = none
  mem_children_iff : ∀ {p n}, c.nodes[p]? = some n → ∀ k, k ∈ n.children ↔
    ∃ l, (kept file? es)[k]? = some l ∧ nearest? file? es l = some p
  roots_ascending : c.roots.Pairwise (· < ·)
  children_ascending : ∀ n ∈ c.nodes.toList, n.children.Pairwise (· < ·)

theorem promoted_flatten (file? : String → Option String) (es : List Entry) :
    Promoted file? es (Outline.flatten (promoteAll file? es)) where
  flattened := rfl
  nodes := by
    rw [Outline.flatten, Contents.map_nodes_ofRows (g := fun r => (r.topic, r.caption))
      (fun r children => rfl), rows_promoteAll]
    refine map_rows (fun l r h => ?_) _
    obtain ⟨file, -, rfl⟩ := Option.map_eq_some_iff.mp h
    rfl
  file := by
    intro n hn
    obtain ⟨r, hr, k, rfl⟩ := Contents.exists_row_of_mem_nodes hn
    rw [rows_promoteAll] at hr
    obtain ⟨l, -, hl⟩ := List.mem_filterMap.mp hr
    obtain ⟨file, hfile, rfl⟩ := Option.map_eq_some_iff.mp hl
    exact hfile
  numbered := getElem?_kept_of_number? file? es
  nearest_lt := nearest?_lt file? es
  mem_roots_iff := mem_below_promoteAll file? es none
  mem_children_iff := by
    intro p n hn
    rw [Outline.flatten, Contents.getElem?_ofRows] at hn
    obtain ⟨r, -, rfl⟩ := Option.map_eq_some_iff.mp hn
    exact mem_below_promoteAll file? es (some p)
  roots_ascending := Contents.below_ascending _ none
  children_ascending := by
    intro n hn
    obtain ⟨r, -, k, rfl⟩ := Contents.exists_row_of_mem_nodes hn
    exact Contents.below_ascending _ (some k)

end HelpAudit.Index
