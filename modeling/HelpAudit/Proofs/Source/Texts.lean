import HelpAudit.Proofs.FileTree
import HelpAudit.Proofs.NameMap

/-!
The texts of a directory tree, each by the segments of the path to its file. In a tree of texts, a
text stands in this list once and just when the path leads to its file, and a search of the tree
finds the files of the list.
-/
namespace HelpAudit.FileTree

open Resource (Segment IsPlain)

mutual
/-- The texts of all files, with the segments of the paths to them. -/
def texts : FileTree → List (List Segment × String)
  | .file text => (text.map fun s => ([], s)).toList
  | .folder es => textsAmong es

def textsAmong : List (String × FileTree) → List (List Segment × String)
  | [] => []
  | (name, t) :: es => t.texts.map (fun f => (name.toList :: f.1, f.2)) ++ textsAmong es
end

/-- A tree in which every file has a text and every name can be a segment of a resource path. -/
inductive IsTextTree : FileTree → Prop where
  | file (text : String) : IsTextTree (.file (some text))
  | folder {es : List (String × FileTree)} (distinct : (es.map (·.1)).Nodup)
      (plain : ∀ e ∈ es, IsPlain e.1.toList) (below : ∀ e ∈ es, IsTextTree e.2) :
      IsTextTree (.folder es)

/-- What the segments of a path lead to. -/
def node? (t : FileTree) (segs : List Segment) : Option FileTree :=
  segs.foldlM (fun t s => t.child? (.ofList s)) t

@[simp] theorem node?_nil (t : FileTree) : t.node? [] = some t := rfl

@[simp] theorem node?_cons (t : FileTree) (s : Segment) (segs : List Segment) :
    t.node? (s :: segs) = (t.child? (.ofList s)).bind (·.node? segs) := rfl

theorem node?_append (t : FileTree) (a b : List Segment) :
    t.node? (a ++ b) = (t.node? a).bind (·.node? b) := List.foldlM_append

/-- Names lead where the entries of that name are. -/
theorem Place.walk_names (p : Place) {segs : List Segment}
    (h : ∀ s ∈ segs, FilePath.IsName s) :
    (segs.foldlM Place.walk? p).map (·.node) = p.node.node? segs := by
  induction segs generalizing p with
  | nil => rfl
  | cons s segs ih =>
    obtain ⟨hs, hrest⟩ := List.forall_mem_cons.mp h
    rw [List.foldlM_cons, Place.walk?_of_isName hs, Place.child?, node?_cons]
    cases p.node.child? (.ofList s) with
    | none => rfl
    | some u => exact ih _ hrest

theorem Place.walk_segments (p : Place) (path : String) :
    ((Resource.segments path).foldlM Place.walk? p).map (·.node) =
      p.node.node? (Resource.segments path) :=
  p.walk_names fun s hs => FilePath.isName_of_isPlain (Resource.isPlain_segments path s hs)

variable {t u : FileTree} {es : List (String × FileTree)} {segs rest : List Segment}
  {name text : String}

theorem textsAmong_eq_flatMap (es : List (String × FileTree)) : textsAmong es =
    es.flatMap fun e => e.2.texts.map fun f => (e.1.toList :: f.1, f.2) := by
  induction es with
  | nil => rfl
  | cons e es ih => rw [textsAmong, ih, List.flatMap_cons]

namespace IsTextTree

theorem child? (h : IsTextTree t) (hu : t.child? name = some u) :
    IsPlain name.toList ∧ IsTextTree u := by
  have hmem := NameMap.mem_of_lookup_eq_some hu
  cases h with
  | file => cases hmem
  | folder distinct plain below => exact ⟨plain _ hmem, below _ hmem⟩

theorem child?_eq_some_iff (h : IsTextTree (.folder es)) :
    (FileTree.folder es).child? name = some u ↔ (name, u) ∈ es := by
  cases h with
  | folder distinct => exact ⟨NameMap.mem_of_lookup_eq_some, NameMap.lookup_eq_some_of_mem distinct⟩

theorem node? (h : IsTextTree t) (hu : t.node? segs = some u) : IsTextTree u := by
  induction segs generalizing t with
  | nil =>
    cases hu
    exact h
  | cons s segs ih =>
    obtain ⟨v, hv, hu⟩ := Option.bind_eq_some_iff.mp hu
    exact ih (h.child? hv).2 hu

/-- Just the texts of the files to which paths lead are listed. -/
theorem mem_texts_iff (h : IsTextTree t) :
    (segs, text) ∈ t.texts ↔ t.node? segs = some (.file (some text)) := by
  induction h generalizing segs with
  | file s =>
    cases segs with
    | nil => simp [texts, eq_comm]
    | cons => simp [texts, FileTree.child?, entries]
  | @folder es distinct plain below ih =>
    have htree : IsTextTree (.folder es) := .folder distinct plain below
    rw [texts, textsAmong_eq_flatMap, List.mem_flatMap]
    simp only [List.mem_map]
    constructor
    · rintro ⟨e, he, ⟨rest, s⟩, hg, heq⟩
      obtain ⟨rfl, rfl⟩ := Prod.mk.inj heq
      have hchild : (FileTree.folder es).child? e.1 = some e.2 :=
        htree.child?_eq_some_iff.mpr he
      rw [node?_cons, String.ofList_toList, hchild, Option.bind_some]
      exact (ih e he).mp hg
    · intro hnode
      cases segs with
      | nil => cases hnode
      | cons s segs =>
        obtain ⟨v, hv, hrest⟩ := Option.bind_eq_some_iff.mp hnode
        have hmem := htree.child?_eq_some_iff.mp hv
        exact ⟨_, hmem, _, (ih _ hmem).mpr hrest, by rw [String.toList_ofList]⟩

/-- The texts below a folder have paths that go on from the folder's. -/
theorem append_mem_texts_iff (h : IsTextTree t) (hu : t.node? segs = some u) :
    (segs ++ rest, text) ∈ t.texts ↔ (rest, text) ∈ u.texts := by
  rw [h.mem_texts_iff, (h.node? hu).mem_texts_iff, node?_append, hu, Option.bind_some]

/-- What stands in front of a text's path, without its end, leads to a folder. -/
theorem exists_folder_of_mem_texts (h : IsTextTree t) (hmem : (segs ++ rest, text) ∈ t.texts)
    (hrest : rest ≠ []) : ∃ u, t.node? segs = some u ∧ u.isFolder = true := by
  rw [h.mem_texts_iff, node?_append] at hmem
  obtain ⟨u, hu, hfile⟩ := Option.bind_eq_some_iff.mp hmem
  obtain ⟨s, rest, rfl⟩ := List.exists_cons_of_ne_nil hrest
  refine ⟨u, hu, ?_⟩
  cases u with
  | file => cases hfile
  | folder => rfl

theorem isPlain_of_node? (h : IsTextTree t) (hu : t.node? segs = some u) :
    ∀ s ∈ segs, IsPlain s := by
  induction segs generalizing t with
  | nil => simp
  | cons s segs ih =>
    obtain ⟨v, hv, hrest⟩ := Option.bind_eq_some_iff.mp hu
    obtain ⟨hplain, htree⟩ := h.child? hv
    rw [String.toList_ofList] at hplain
    exact List.forall_mem_cons.mpr ⟨hplain, ih htree hrest⟩

theorem isPlain_of_mem_texts (h : IsTextTree t) (hmem : (segs, text) ∈ t.texts) :
    ∀ s ∈ segs, IsPlain s :=
  h.isPlain_of_node? (h.mem_texts_iff.mp hmem)

/-- The texts of a folder stand below it. -/
theorem ne_nil_of_mem_texts (h : IsTextTree t) (hfolder : t.isFolder = true)
    (hmem : (segs, text) ∈ t.texts) : segs ≠ [] := by
  rintro rfl
  cases Option.some_inj.mp (h.mem_texts_iff.mp hmem)
  cases hfolder

/-- No path is listed twice. -/
theorem nodup_texts (h : IsTextTree t) : (t.texts.map (·.1)).Nodup := by
  induction h with
  | file => simp [texts]
  | @folder es distinct plain below ih =>
    rw [texts, textsAmong_eq_flatMap, List.map_flatMap, List.nodup_flatMap]
    constructor
    · intro e he
      have hbelow := (ih e he).map (List.cons_injective (a := e.1.toList))
      rwa [List.map_map] at hbelow ⊢
    · refine (List.pairwise_map.mp distinct).imp fun {a b} hne => ?_
      intro segs ha hb
      simp only [List.mem_map] at ha hb
      obtain ⟨_, ⟨_, -, rfl⟩, rfl⟩ := ha
      obtain ⟨_, ⟨_, -, rfl⟩, heq⟩ := hb
      exact hne (String.toList_injective (List.cons.inj heq).1.symm)

end IsTextTree

theorem isFile_eq_not_isFolder (t : FileTree) : t.isFile = !t.isFolder := by
  cases t <;> rfl

/-- The ways to the files among what was found. -/
def fileTrails (found : List Found) : List (List Segment) :=
  (found.filter (·.place.node.isFile)).map (·.trail)

theorem fileTrails_append (a b : List Found) :
    fileTrails (a ++ b) = fileTrails a ++ fileTrails b := by
  rw [fileTrails, List.filter_append, List.map_append]
  rfl

theorem fileTrails_filter (P : List Segment → Bool) (found : List Found) :
    fileTrails (found.filter (P ·.trail)) = (fileTrails found).filter P := by
  rw [fileTrails, fileTrails, List.filter_map, List.filter_filter, List.filter_filter]
  congr 1
  exact List.filter_congr fun f _ => Bool.and_comm _ _

/-- A search finds the files with the listed texts, in the same order. -/
theorem IsTextTree.fileTrails_found (h : IsTextTree t) {p : Place} (hp : p.node = t)
    (trail : List Segment) :
    fileTrails (⟨p, trail⟩ :: foundBelow p trail t) = t.texts.map (trail ++ ·.1) := by
  induction h generalizing p trail with
  | file text => simp [fileTrails, foundBelow, texts, hp, isFile]
  | @folder es distinct plain below ih =>
    have hfolder : fileTrails (⟨p, trail⟩ :: foundBelow p trail (.folder es)) =
        fileTrails (foundAmong p trail es) := by
      rw [foundBelow, fileTrails, List.filter_cons_of_neg (by simp [hp, isFile])]
      rfl
    rw [hfolder, texts]
    clear hfolder distinct plain below hp
    induction es with
    | nil => rfl
    | cons e es ihes =>
      obtain ⟨name, u⟩ := e
      have hhead := ih (name, u) List.mem_cons_self (p := p.enter name u) rfl
        (trail ++ [name.toList])
      have htail := ihes fun e he => ih e (List.mem_cons_of_mem _ he)
      rw [foundAmong, textsAmong, List.map_append, List.map_map, fileTrails_append, htail, hhead]
      simp

/-- A pattern for names selects the files with such a name at any depth. -/
theorem IsTextTree.fileTrails_select {p : Place} (h : IsTextTree p.node)
    (hfolder : p.node.isFolder = true) (atoms : List Glob.Atom) :
    fileTrails (Found.select [.anywhere, .name atoms] ⟨p, []⟩) =
      (p.node.texts.map (·.1)).filter (Glob.matchesName atoms <| ·.getLast?.getD []) := by
  have hselect : Found.select [.anywhere, .name atoms] ⟨p, []⟩ =
      (foundBelow p [] p.node).filter (Glob.matchesName atoms <| ·.trail.getLast?.getD []) := by
    rw [Found.select]
    exact List.flatMap_singleton' _
  have hbelow : fileTrails (foundBelow p [] p.node) = p.node.texts.map (·.1) := by
    have hfound := h.fileTrails_found rfl []
    rw [fileTrails, List.filter_cons_of_neg] at hfound
    · exact hfound
    · rw [isFile_eq_not_isFolder, hfolder]
      exact Bool.false_ne_true
  rw [hselect, fileTrails_filter (Glob.matchesName atoms <| ·.getLast?.getD []), hbelow]

end HelpAudit.FileTree
