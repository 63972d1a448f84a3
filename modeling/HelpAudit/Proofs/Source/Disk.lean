import HelpAudit.Proofs.FileTree
import HelpAudit.Proofs.Glob
import HelpAudit.Proofs.Source.Listing
import HelpAudit.Proofs.Source.Resources
import HelpAudit.Source.Disk
import Mathlib.Data.List.TakeWhile

/-!
Texts below a folder of a tree are read and listed as if they stood in a memory under the same
paths. The listing of the whole folder is the exception when the folder's path ends in a backslash,
which is cut off there as if it were a slash.
-/
namespace HelpAudit.FileTree

open Resource (Segment IsPlain)

/-- A folder that holds nothing but folders and texts, and its absolute path. -/
structure IsTextFolder (t : FileTree) (root : String) (p : Place) : Prop where
  absolute : FilePath.isAbsolute root = true
  found : t.find? "/" root = some p
  folder : p.node.isFolder = true
  tree : IsTextTree p.node

/-- Where a listing starts. -/
abbrev searchBase (root folder : String) : String :=
  trimSlashes (FilePath.join root (Resource.normalize folder))

/-- The path ends in a backslash, slashes behind it aside. -/
def EndsInBackslash (path : String) : Prop :=
  (path.toList.reverse.dropWhile (· == '/')).head? = some '\\'

instance (path : String) : Decidable (EndsInBackslash path) :=
  inferInstanceAs (Decidable (_ = _))

/-- What is listed is written in canonical form. -/
theorem isCanonical_of_mem_list {t : FileTree} {root folder glob path : String}
    (h : path ∈ ((t.source root).list folder glob).value) : Resource.IsCanonical path := by
  rw [source] at h
  dsimp only at h
  unfold list at h
  dsimp only at h
  split at h
  · cases h
  · split at h
    · cases h
    · split at h
      · cases h
      · rw [Logged.pure_value, mem_sortNames, List.mem_filterMap] at h
        obtain ⟨f, -, hf⟩ := h
        rw [resourceOf?, Option.map_eq_some_iff] at hf
        obtain ⟨relative, -, rfl⟩ := hf
        exact Resource.isCanonical_normalize relative

section Trim

variable {path : String}

theorem endsInBackslash_slash : EndsInBackslash (path ++ "/") ↔ EndsInBackslash path := by
  simp [EndsInBackslash]

theorem not_endsInBackslash_segment (front : String) {s : Segment} (h : IsPlain s) :
    ¬EndsInBackslash (front ++ .ofList s) := by
  obtain ⟨hne, -, -, hseparator⟩ := h
  obtain ⟨cs, c, rfl⟩ := List.eq_nil_or_concat s |>.resolve_left hne
  have hc := hseparator c (by simp)
  rw [Resource.isSeparator, Bool.or_eq_false_iff, beq_eq_false_iff_ne, beq_eq_false_iff_ne] at hc
  simp [EndsInBackslash, hc]

theorem dropWhile_isSeparator (h : ¬EndsInBackslash path) :
    path.toList.reverse.dropWhile Resource.isSeparator =
      path.toList.reverse.dropWhile (· == '/') := by
  have hslashes : ∀ c ∈ path.toList.reverse.takeWhile (· == '/'),
      Resource.isSeparator c = true := fun c hc => by
    simp [Resource.isSeparator, List.mem_takeWhile_imp hc]
  conv_lhs => rw [← List.takeWhile_append_dropWhile (p := (· == '/')) (l := path.toList.reverse)]
  rw [List.dropWhile_append_of_pos hslashes]
  -- What is left starts with neither slash, so nothing more is dropped.
  rw [EndsInBackslash] at h
  have hhead := List.head?_dropWhile_not (· == '/') path.toList.reverse
  cases hrest : path.toList.reverse.dropWhile (· == '/') with
  | nil => rfl
  | cons c cs =>
    rw [hrest, List.head?_cons] at h hhead
    have hc : c ≠ '\\' := fun heq => h (congrArg some heq)
    rw [List.dropWhile_cons_of_neg (by simpa [Resource.isSeparator, hc] using hhead)]

/-- Only slashes are cut off a path that does not end in a backslash. -/
theorem exists_trimSlashes (h : ¬EndsInBackslash path) :
    ∃ n, path = trimSlashes path ++ .ofList (List.replicate n '/') := by
  have hsplit := List.takeWhile_append_dropWhile (p := (· == '/')) (l := path.toList.reverse)
  have hslashes : ∀ c ∈ path.toList.reverse.takeWhile (· == '/'), c = '/' := fun c hc => by
    simpa using List.mem_takeWhile_imp hc
  have htext := congrArg List.reverse hsplit
  rw [List.reverse_append, List.reverse_reverse, List.eq_replicate_of_mem hslashes,
    List.reverse_replicate, ← dropWhile_isSeparator h] at htext
  refine ⟨(path.toList.reverse.takeWhile (· == '/')).length, String.toList_injective ?_⟩
  rw [String.toList_append, trimSlashes, String.toList_ofList, String.toList_ofList]
  exact htext.symm

theorem steps_trimSlashes (h : ¬EndsInBackslash path) :
    FilePath.steps (trimSlashes path) = FilePath.steps path := by
  obtain ⟨n, hn⟩ := exists_trimSlashes h
  have hslashes (base : String) (n : Nat) :
      FilePath.steps (base ++ .ofList (List.replicate n '/')) = FilePath.steps base := by
    induction n with
    | zero => simp
    | succ n ih =>
      rw [List.replicate_succ', String.ofList_append, ← String.append_assoc]
      exact (FilePath.steps_slash _).trans ih
  conv_rhs => rw [hn, hslashes]

theorem isAbsolute_trimSlashes (h : ¬EndsInBackslash path) (habs : FilePath.isAbsolute path = true)
    (rest : String) : FilePath.isAbsolute (trimSlashes path ++ "/" ++ rest) = true := by
  obtain ⟨n, hn⟩ := exists_trimSlashes h
  apply FilePath.isAbsolute_append
  rw [hn, FilePath.isAbsolute, String.toList_append, String.toList_ofList] at habs
  rw [FilePath.isAbsolute, String.toList_append]
  cases hbase : (trimSlashes path).toList with
  | nil => rfl
  | cons c cs =>
    rw [hbase] at habs
    simpa using habs

end Trim

namespace IsTextFolder

variable {t : FileTree} {root : String} {p : Place} {segs : List Segment}
  (h : t.IsTextFolder root p)
include h

theorem walk_root : (FilePath.pieces root).foldlM Place.walk? (.top t) = some p := by
  rw [← find?_of_isAbsolute t "/" h.absolute]
  exact h.found

theorem walk_steps : (FilePath.steps root).foldlM Place.walk? (.top t) = some p :=
  Place.walk_steps h.walk_root

/-- A canonical path leads on from the folder. -/
theorem placeOf?_eq (resource : String) :
    (t.placeOf? root resource).map (·.node) = p.node.node? (Resource.segments resource) := by
  have hplain := Resource.isPlain_segments resource
  rw [placeOf?, find?_of_isAbsolute t "/" (FilePath.isAbsolute_join h.absolute _),
    Resource.normalize, walk_join h.absolute (FilePath.isAbsolute_render hplain), h.walk_root,
    Option.bind_some, ← p.walk_segments, Place.walk_render hplain h.folder]

theorem content_eq (resource : String) : (t.source root).content resource =
    (Memory.ofList p.node.resources).source.content resource := by
  have hplain := Resource.isPlain_segments resource
  have hmemory : (Memory.ofList p.node.resources).source.content resource =
      (p.node.node? (Resource.segments resource)).bind text? := h.tree.find?_render hplain
  rw [hmemory, ← h.placeOf?_eq, Option.bind_map, source]
  dsimp only [Function.comp_def]

/-- In a tree of texts, a path leads to a file when it leads to a text. -/
theorem holds_eq (resource : String) : (t.source root).holds resource =
    (Memory.ofList p.node.resources).source.holds resource := by
  have hmemory : (Memory.ofList p.node.resources).source.holds resource =
      ((t.source root).content resource).isSome := by
    rw [h.content_eq]
    rfl
  have hnode := h.placeOf?_eq resource
  rw [hmemory, source]
  dsimp only
  cases hplace : t.placeOf? root resource with
  | none => rfl
  | some q =>
    rw [hplace] at hnode
    have htext : ∀ u : FileTree, IsTextTree u → u.isFile = u.text?.isSome := by
      rintro _ (text | _) <;> rfl
    rw [Option.map_some, Option.getD_some, Option.bind_some]
    exact htext _ (h.tree.node? hnode.symm)

variable {folder glob : String} {atoms : List Glob.Atom}
  (hfolder : Resource.normalize folder ≠ "" ∨ ¬EndsInBackslash root)
include hfolder

/-- Below the folder nothing is cut off a path but slashes. -/
theorem not_endsInBackslash :
    ¬EndsInBackslash (FilePath.join root (Resource.normalize folder)) := by
  have hplain := Resource.isPlain_segments folder
  have hne := FilePath.ne_empty_of_isAbsolute h.absolute
  obtain ⟨front, hfront, hjoin⟩ := FilePath.join_eq hne (FilePath.isAbsolute_render hplain)
  rw [Resource.normalize, hjoin]
  rcases List.eq_nil_or_concat (Resource.segments folder) with hnil | ⟨before, s, hsegs⟩
  · have hempty : Resource.render (Resource.segments folder) = "" := by
      rw [hnil]
      rfl
    have hroot : ¬EndsInBackslash root := hfolder.resolve_left fun hne => hne hempty
    rw [hempty, String.append_empty, endsInBackslash_slash]
    rcases hfront with rfl | rfl
    · exact hroot
    · rwa [endsInBackslash_slash] at hroot
  · rw [hsegs] at hplain ⊢
    obtain ⟨lead, hlead⟩ := Resource.exists_render_concat before s
    rw [List.concat_eq_append, hlead, ← String.append_assoc]
    exact not_endsInBackslash_segment _ (hplain s (by simp))

theorem steps_base : FilePath.steps (searchBase root folder) =
    FilePath.steps root ++ Resource.segments folder := by
  have hplain := Resource.isPlain_segments folder
  rw [steps_trimSlashes (h.not_endsInBackslash hfolder), Resource.normalize,
    FilePath.steps_join root (FilePath.isAbsolute_render hplain),
    FilePath.steps_render hplain]

theorem resourceOf?_eq {trail : List Segment} (htrail : ∀ s ∈ trail, IsPlain s) :
    resourceOf? root (searchBase root folder) trail =
      some (Resource.render (Resource.segments folder ++ trail)) := by
  have hplain := List.forall_mem_append.mpr ⟨Resource.isPlain_segments folder, htrail⟩
  have habsolute := isAbsolute_trimSlashes (h.not_endsInBackslash hfolder)
    (FilePath.isAbsolute_join h.absolute _) (Resource.render trail)
  have hsteps := FilePath.steps_append_slash (searchBase root folder) (Resource.render trail)
  rw [h.steps_base hfolder, FilePath.steps_render htrail, List.append_assoc] at hsteps
  have hnormal := Resource.isCanonical_iff.mp ⟨_, hplain, rfl⟩
  have hrelative := FilePath.relative?_of_steps h.absolute habsolute hsteps
  exact (congrArg (Option.map Resource.normalize) hrelative).trans (congrArg some hnormal)

/-- A listing starts in the folder that the segments lead to. -/
theorem find?_base : t.find? "/" (searchBase root folder ++ "/") =
    ((Resource.segments folder).foldlM Place.walk? p).bind (·.walk? []) := by
  have habsolute := isAbsolute_trimSlashes (h.not_endsInBackslash hfolder)
    (FilePath.isAbsolute_join h.absolute _) ""
  rw [String.append_empty] at habsolute
  rw [find?_of_isAbsolute t "/" habsolute, FilePath.pieces_slash, List.foldlM_append]
  have hfilter := Place.walk_filter (FilePath.pieces (searchBase root folder)) (.top t)
  have hsteps := h.steps_base hfolder
  rw [FilePath.steps] at hsteps
  rw [hsteps, List.foldlM_append, h.walk_steps] at hfilter
  simp only [List.foldlM_cons, List.foldlM_nil, bind_pure]
  exact hfilter

/-- The files that a listing selects, named by their resources. -/
theorem filterMap_select {q : Place} (htree : IsTextTree q.node)
    (hqfolder : q.node.isFolder = true) (atoms : List Glob.Atom) :
    ((Found.select [.anywhere, .name atoms] ⟨q, []⟩).filter (·.place.node.isFile)).filterMap
        (fun f => resourceOf? root (searchBase root folder) f.trail) =
      ((q.node.texts.map (·.1)).filter (Glob.matchesName atoms <| ·.getLast?.getD [])).map
        fun trail => Resource.render (Resource.segments folder ++ trail) := by
  rw [← htree.fileTrails_select hqfolder, fileTrails, ← List.filterMap_eq_map, List.filterMap_map]
  apply List.filterMap_congr
  intro f hf
  have htrail : f.trail ∈ fileTrails (Found.select [.anywhere, .name atoms] ⟨q, []⟩) :=
    List.mem_map_of_mem hf
  rw [htree.fileTrails_select hqfolder] at htrail
  obtain ⟨g, hg, hgf⟩ := List.mem_map.mp (List.mem_filter.mp htrail).1
  exact h.resourceOf?_eq hfolder (hgf ▸ htree.isPlain_of_mem_texts hg)

/-- A listing shows, in strictly ascending order, the files to which paths go on from a folder. -/
theorem exists_list (hglob : Glob.MatchesNames glob atoms) :
    ∃ names, t.list root folder glob = pure names ∧ names.Pairwise (· < ·) ∧
      ∀ path, path ∈ names ↔
        ∃ trail text, trail ≠ [] ∧ (Resource.segments folder ++ trail, text) ∈ p.node.texts ∧
          Glob.matchesName atoms (trail.getLast?.getD []) = true ∧
          path = Resource.render (Resource.segments folder ++ trail) := by
  have hplain := Resource.isPlain_segments folder
  have hnode := p.walk_segments folder
  rw [list, hglob.path]
  dsimp only
  rw [if_neg hglob.last, h.find?_base hfolder]
  cases hplace : ((Resource.segments folder).foldlM Place.walk? p).bind (·.walk? []) with
  | none =>
    refine ⟨[], rfl, List.Pairwise.nil, fun path =>
      ⟨fun hpath => absurd hpath List.not_mem_nil, ?_⟩⟩
    rintro ⟨trail, text, htrail, hmem, -, -⟩
    -- The path of a text below the folder would lead through the folder.
    obtain ⟨u, hu, hufolder⟩ := h.tree.exists_folder_of_mem_texts hmem htrail
    rw [hu] at hnode
    obtain ⟨q, hq, rfl⟩ := Option.map_eq_some_iff.mp hnode
    rw [hq, Option.bind_some, Place.walk?_nil_eq_some_iff.mpr ⟨hufolder, rfl⟩] at hplace
    cases hplace
  | some place =>
    obtain ⟨q, hq, hstay⟩ := Option.bind_eq_some_iff.mp hplace
    obtain ⟨hqfolder, rfl⟩ := Place.walk?_nil_eq_some_iff.mp hstay
    rw [hq, Option.map_some] at hnode
    have htree := h.tree.node? hnode.symm
    refine ⟨_, rfl, pairwise_sortNames_of_nodup ?_, fun path => ?_⟩
    · rw [h.filterMap_select hfolder htree hqfolder]
      exact (htree.nodup_map_render hplain).sublist (List.filter_sublist.map _)
    · rw [mem_sortNames, h.filterMap_select hfolder htree hqfolder]
      simp only [List.mem_map, List.mem_filter]
      constructor
      · rintro ⟨trail, ⟨⟨⟨segs, text⟩, hmem, rfl⟩, hmatch⟩, rfl⟩
        exact ⟨segs, text, htree.ne_nil_of_mem_texts hqfolder hmem,
          (h.tree.append_mem_texts_iff hnode.symm).mpr hmem, hmatch, rfl⟩
      · rintro ⟨trail, text, -, hmem, hmatch, rfl⟩
        rw [h.tree.append_mem_texts_iff hnode.symm] at hmem
        exact ⟨trail, ⟨⟨_, hmem, rfl⟩, hmatch⟩, rfl⟩

theorem list_eq (hglob : Glob.MatchesNames glob atoms) :
    (t.source root).list folder glob =
      (Memory.ofList p.node.resources).source.list folder glob := by
  obtain ⟨names, hlist, hascending, hmem⟩ := h.exists_list hfolder hglob
  have hnames : names = Memory.list (Memory.ofList p.node.resources) folder glob := by
    refine hascending.eq_of_mem_iff (Memory.pairwise_list _ _ _) fun path => ?_
    rw [hmem, h.tree.mem_list_resources h.folder hglob.name]
  exact hlist.trans (congrArg Pure.pure hnames)

end IsTextFolder

end HelpAudit.FileTree
