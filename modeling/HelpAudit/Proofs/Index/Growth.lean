import HelpAudit.Proofs.Index.Draft
import HelpAudit.Proofs.Index.Outline
import HelpAudit.Proofs.Index.Reached
import HelpAudit.Proofs.Sequence

/-! Tables of contents as declarations grow them: entries below any number and links between any
two. Which nodes the roots lead to can be read off the declarations. -/
namespace HelpAudit

namespace Declaration

/-- An entry is declared without children. -/
def IsBare : Declaration → Prop
  | .entry _ node => node.children = []
  | _ => True

/-- The paths of the declared files, each where it is declared first. -/
def paths (ds : List Declaration) : List String :=
  (ds.filterMap fun
    | .file path _ => some path
    | _ => none).eraseDups

/-- The parents that the entries name, in order of the entries' numbers. -/
def parents (ds : List Declaration) : List (Option Nat) :=
  ds.filterMap fun
    | .entry parent _ => some parent
    | _ => none

/-- The entry is declared below the number that it gets itself. -/
def IsOwnParent (ds : List Declaration) (id : Nat) : Prop := (parents ds)[id]? = some (some id)

/-- A link between two entries that stand before it. -/
def Links (ds : List Declaration) (p id : Nat) : Prop :=
  ExistsAfter (fun before d =>
    d = .edge p id ∧ p < (parents before).length ∧ id < (parents before).length) ds

variable {ds : List Declaration}

theorem parents_concat_entry (parent : Option Nat) (node : Contents.Node) :
    parents (ds ++ [.entry parent node]) = parents ds ++ [parent] := by
  simp [parents]

theorem parents_concat_of_ne {d : Declaration} (h : ∀ parent node, d ≠ .entry parent node) :
    parents (ds ++ [d]) = parents ds := by
  cases d with
  | entry parent node => exact absurd rfl (h parent node)
  | _ => simp [parents]

theorem links_concat {d : Declaration} {p id : Nat} : Links (ds ++ [d]) p id ↔
    Links ds p id ∨ d = .edge p id ∧ p < (parents ds).length ∧ id < (parents ds).length :=
  existsAfter_concat

theorem Links.lt_length {p id : Nat} (h : Links ds p id) : id < (parents ds).length := by
  obtain ⟨before, d, after, rfl, -, -, hlt⟩ := h
  rw [parents, List.filterMap_append, List.length_append, ← parents]
  omega

end Declaration

namespace Contents

open Declaration

variable {c : Contents} {ds : List Declaration}

theorem mem_childrenOf_modify {nodes : Array Node} {roots : List Nat} {p new q id : Nat} :
    id ∈ childrenOf ⟨nodes.modify p (·.addChild new), roots⟩ q ↔
      id ∈ childrenOf ⟨nodes, roots⟩ q ∨ p = q ∧ q < nodes.size ∧ id = new := by
  unfold childrenOf
  rw [Array.getElem?_modify]
  by_cases hp : p = q
  · by_cases hq : q < nodes.size
    · simp [hp, hq, Node.addChild]
    · simp [hp, hq]
  · simp [hp]

theorem childrenOf_append {roots : List Nat} {node : Node} (hbare : node.children = []) (q : Nat) :
    childrenOf ⟨c.nodes.push node, roots⟩ q = c.childrenOf q := by
  unfold childrenOf
  rw [Array.getElem?_push]
  by_cases hq : q = c.nodes.size
  · simp [hq, hbare]
  · simp [hq]

theorem mem_childrenOf_push {parent : Option Nat} {node : Node} (hbare : node.children = [])
    {q id : Nat} : id ∈ (c.push parent node).childrenOf q ↔
      id ∈ c.childrenOf q ∨ parent = some q ∧ q ≤ c.nodes.size ∧ id = c.nodes.size := by
  unfold push
  cases parent with
  | none => simp [childrenOf_append hbare]
  | some p =>
    dsimp only
    split
    · next hlt =>
      rw [mem_childrenOf_modify, childrenOf_append hbare, Array.size_push, Nat.lt_succ_iff,
        Option.some.injEq]
    · next hge =>
      rw [Array.size_push] at hge
      have hfar : ¬(p = q ∧ q ≤ c.nodes.size ∧ id = c.nodes.size) := by omega
      rw [childrenOf_append hbare, Option.some.injEq]
      simp [hfar]

theorem mem_roots_push {parent : Option Nat} {node : Node} {id : Nat} :
    id ∈ (c.push parent node).roots ↔
      id ∈ c.roots ∨ id = c.nodes.size ∧ ∀ p ∈ parent, c.nodes.size < p := by
  unfold push
  cases parent with
  | none => simp
  | some p =>
    dsimp only
    rw [Array.size_push]
    split
    · next hlt =>
      have hnear : ¬c.nodes.size < p := by omega
      simp [hnear]
    · next hge =>
      have hfar : c.nodes.size < p := by omega
      simp [hfar]

theorem mem_childrenOf_link {p child q id : Nat} : id ∈ (c.link p child).childrenOf q ↔
    id ∈ c.childrenOf q ∨ p = q ∧ q < c.nodes.size ∧ id = child ∧ child < c.nodes.size := by
  unfold link
  split
  · next hlt =>
    rw [mem_childrenOf_modify]
    simp [hlt]
  · next hge => simp [hge]

theorem size_link (c : Contents) (p child : Nat) : (c.link p child).nodes.size = c.nodes.size := by
  unfold link
  split
  · simp
  · rfl

theorem roots_link (c : Contents) (p child : Nat) : (c.link p child).roots = c.roots := by
  unfold link
  split <;> rfl

/-- What the declarations say about a table of contents: an entry is a root when no entry up to
itself is its parent, and children come from parents and links. -/
structure Describes (ds : List Declaration) (c : Contents) : Prop where
  size_eq : c.nodes.size = (parents ds).length
  mem_roots : ∀ {id}, id ∈ c.roots ↔
    ∃ parent, (parents ds)[id]? = some parent ∧ ∀ p ∈ parent, id < p
  mem_childrenOf : ∀ {p id}, id ∈ c.childrenOf p ↔
    (parents ds)[id]? = some (some p) ∧ p ≤ id ∨ Links ds p id

theorem describes_nil : Describes [] empty where
  size_eq := rfl
  mem_roots := by simp [empty, parents]
  mem_childrenOf := by simp [empty, childrenOf, parents, Links, not_existsAfter_nil]

theorem describes_push (h : Describes ds c) (parent : Option Nat) {node : Node}
    (hbare : node.children = []) :
    Describes (ds ++ [.entry parent node]) (c.push parent node) where
  size_eq := by
    rw [size_push, parents_concat_entry, List.length_append, h.size_eq]
    rfl
  mem_roots := by
    intro id
    rw [mem_roots_push, h.mem_roots, parents_concat_entry, h.size_eq]
    simp only [getElem?_concat_eq_some_iff]
    constructor
    · rintro (⟨above, habove, hlt⟩ | ⟨rfl, hlt⟩)
      · exact ⟨above, .inl habove, hlt⟩
      · exact ⟨parent, .inr ⟨rfl, rfl⟩, hlt⟩
    · rintro ⟨above, habove | ⟨rfl, rfl⟩, hlt⟩
      · exact .inl ⟨above, habove, hlt⟩
      · exact .inr ⟨rfl, hlt⟩
  mem_childrenOf := by
    intro p id
    rw [mem_childrenOf_push hbare, h.mem_childrenOf, links_concat, parents_concat_entry, h.size_eq,
      getElem?_concat_eq_some_iff]
    constructor
    · rintro ((⟨hid, hle⟩ | hl) | ⟨rfl, hle, rfl⟩)
      · exact .inl ⟨.inl hid, hle⟩
      · exact .inr (.inl hl)
      · exact .inl ⟨.inr ⟨rfl, rfl⟩, hle⟩
    · rintro (⟨hid | ⟨rfl, rfl⟩, hle⟩ | hl | ⟨hedge, -⟩)
      · exact .inl (.inl ⟨hid, hle⟩)
      · exact .inr ⟨rfl, hle, rfl⟩
      · exact .inl (.inr hl)
      · cases hedge

theorem describes_link (h : Describes ds c) (p child : Nat) :
    Describes (ds ++ [.edge p child]) (c.link p child) where
  size_eq := by
    rw [size_link, h.size_eq, parents_concat_of_ne (by simp)]
  mem_roots := by
    intro id
    rw [roots_link, h.mem_roots, parents_concat_of_ne (by simp)]
  mem_childrenOf := by
    intro q id
    rw [mem_childrenOf_link, h.mem_childrenOf, links_concat, parents_concat_of_ne (by simp),
      h.size_eq, or_assoc]
    constructor
    · rintro (hid | hl | ⟨rfl, hp, rfl, hid⟩)
      · exact .inl hid
      · exact .inr (.inl hl)
      · exact .inr (.inr ⟨rfl, hp, hid⟩)
    · rintro (hid | hl | ⟨hedge, hp, hid⟩)
      · exact .inl hid
      · exact .inr (.inl hl)
      · cases hedge
        exact .inr (.inr ⟨rfl, hp, rfl, hid⟩)

/-- Other declarations leave the table as it is. -/
theorem describes_concat (h : Describes ds c) {d : Declaration}
    (hentry : ∀ parent node, d ≠ .entry parent node) (hedge : ∀ p child, d ≠ .edge p child) :
    Describes (ds ++ [d]) c where
  size_eq := by rw [h.size_eq, parents_concat_of_ne hentry]
  mem_roots := by
    intro id
    rw [h.mem_roots, parents_concat_of_ne hentry]
  mem_childrenOf := by
    intro p id
    rw [h.mem_childrenOf, links_concat, parents_concat_of_ne hentry]
    simp [hedge]

theorem describes_declare {d : Draft} (h : Describes ds d.contents) {decl : Declaration}
    (hbare : decl.IsBare) : Describes (ds ++ [decl]) (d.declare decl).contents := by
  cases decl with
  | description text => exact describes_concat h (by simp) (by simp)
  | location path => exact describes_concat h (by simp) (by simp)
  | file path title => exact describes_concat h (by simp) (by simp)
  | topic t =>
    obtain ⟨topics, events, hsame⟩ := d.exists_addTopic_eq t
    rw [Draft.declare, hsame]
    exact describes_concat h (by simp) (by simp)
  | entry parent node => exact describes_push h parent hbare
  | edge p child => exact describes_link h p child

theorem describes_declareAll (package docRoot : String) (hbare : ∀ d ∈ ds, d.IsBare) :
    Describes ds ((Draft.start package docRoot).declareAll ds).contents := by
  induction ds using List.reverseRecOn with
  | nil => exact describes_nil
  | append_singleton ds d ih =>
    rw [Draft.declareAll, List.foldl_append]
    have hds : ∀ e ∈ ds, e.IsBare := fun e he => hbare e (List.mem_append_left _ he)
    exact describes_declare (ih hds) (hbare d (List.mem_append_right _ List.mem_cons_self))

namespace Describes

variable (h : Describes ds c)
include h

theorem roots_lt {id : Nat} (hid : id ∈ c.roots) : id < c.nodes.size := by
  obtain ⟨parent, hp, -⟩ := h.mem_roots.mp hid
  rw [h.size_eq]
  exact (List.getElem?_eq_some_iff.mp hp).1

theorem childrenOf_lt {p id : Nat} (hid : id ∈ c.childrenOf p) : id < c.nodes.size := by
  rw [h.size_eq]
  rcases h.mem_childrenOf.mp hid with ⟨hp, -⟩ | hl
  · exact (List.getElem?_eq_some_iff.mp hp).1
  · exact hl.lt_length

theorem reaches_of_mem_childrenOf {p id : Nat} (hp : Reaches c p) (hid : id ∈ c.childrenOf p) :
    Reaches c id := by
  obtain ⟨node, hnode, hc⟩ := Contents.mem_childrenOf.mp hid
  exact .child hp hnode hc (h.childrenOf_lt hid)

/-- Only a link from another node leads to an entry that is its own parent. -/
theorem reaches_iff_of_isOwnParent {id : Nat} (hown : IsOwnParent ds id) :
    Reaches c id ↔ ∃ p, p ≠ id ∧ Links ds p id ∧ Reaches c p := by
  constructor
  · intro hid
    induction hid with
    | @root id hroot hlt =>
      obtain ⟨parent, hp, hfar⟩ := h.mem_roots.mp hroot
      rw [← Option.some.inj (hown.symm.trans hp)] at hfar
      exact absurd (hfar id rfl) (Nat.lt_irrefl id)
    | @child p id node hp hnode hc hlt ih =>
      by_cases heq : p = id
      · subst heq
        exact ih hown
      · have hchild : id ∈ c.childrenOf p := Contents.mem_childrenOf.mpr ⟨node, hnode, hc⟩
        rcases h.mem_childrenOf.mp hchild with ⟨hparent, -⟩ | hl
        · have hsome : some id = some p := Option.some.inj (hown.symm.trans hparent)
          exact absurd (Option.some.inj hsome).symm heq
        · exact ⟨p, heq, hl, hp⟩
  · rintro ⟨p, -, hl, hp⟩
    exact h.reaches_of_mem_childrenOf hp (h.mem_childrenOf.mpr (.inr hl))

/-- Every node hangs on a root or on an entry that is its own parent. -/
theorem reaches_all_iff : (∀ id < c.nodes.size, Reaches c id) ↔
    ∀ id, IsOwnParent ds id → ∃ p, p ≠ id ∧ Links ds p id ∧ Reaches c p := by
  constructor
  · intro hall id hown
    have hlt : id < c.nodes.size := by
      rw [h.size_eq]
      exact (List.getElem?_eq_some_iff.mp hown).1
    exact (h.reaches_iff_of_isOwnParent hown).mp (hall id hlt)
  · intro hown id
    -- The parent of an entry, if it is in the table and another, has a smaller number.
    induction id using Nat.strongRecOn with
    | ind id ih =>
      intro hlt
      obtain ⟨parent, hparent⟩ : ∃ parent, (parents ds)[id]? = some parent := by
        rw [h.size_eq] at hlt
        exact ⟨_, List.getElem?_eq_getElem hlt⟩
      by_cases hroot : ∀ p ∈ parent, id < p
      · exact .root (h.mem_roots.mpr ⟨parent, hparent, hroot⟩) hlt
      · obtain ⟨p, rfl, hle⟩ : ∃ p ∈ parent, p ≤ id := by simpa using hroot
        rcases Nat.eq_or_lt_of_le hle with rfl | hp
        · exact (h.reaches_iff_of_isOwnParent hparent).mpr (hown p hparent)
        · exact h.reaches_of_mem_childrenOf (ih p hp (by omega))
            (h.mem_childrenOf.mpr (.inl ⟨hparent, hle⟩))

end Describes

end Contents

/-- The index that the declarations lead to. -/
def Index.ofDeclarations (package docRoot : String) (ds : List Declaration) : Index :=
  ((Draft.start package docRoot).declareAll ds).build

namespace Declaration

variable {package docRoot : String} {ds : List Declaration}

theorem describes_ofDeclarations (hbare : ∀ d ∈ ds, d.IsBare) :
    Contents.Describes ds (Index.ofDeclarations package docRoot ds).contents :=
  Contents.describes_declareAll package docRoot hbare

theorem paths_concat_file (path title : String) : paths (ds ++ [.file path title]) =
    if path ∈ paths ds then paths ds else paths ds ++ [path] := by
  simp only [paths, List.filterMap_append, List.filterMap_cons, List.filterMap_nil,
    eraseDups_concat, List.mem_eraseDups]

theorem paths_concat_of_ne {d : Declaration} (h : ∀ path title, d ≠ .file path title) :
    paths (ds ++ [d]) = paths ds := by
  cases d with
  | file path title => exact absurd rfl (h path title)
  | _ => simp [paths]

/-- An index has the declared files in the order of their first declarations. -/
theorem paths_files_ofDeclarations :
    (Index.ofDeclarations package docRoot ds).files.map (·.path) = paths ds := by
  induction ds using List.reverseRecOn with
  | nil => rfl
  | append_singleton ds d ih =>
    have hstep : (Index.ofDeclarations package docRoot (ds ++ [d])).files =
        (((Draft.start package docRoot).declareAll ds).declare d).files := by
      rw [Index.ofDeclarations, Draft.declareAll, List.foldl_append]
      rfl
    rw [hstep]
    cases d with
    | file path title =>
      rw [paths_concat_file, ← ih]
      exact Draft.paths_setTitle path title _
    | topic t =>
      rw [paths_concat_of_ne (by simp), ← ih, Draft.declare, Draft.files_addTopic]
      rfl
    | _ =>
      rw [paths_concat_of_ne (by simp), ← ih]
      rfl

end Declaration

end HelpAudit
