import HelpAudit.Proofs.FilePath
import HelpAudit.Proofs.Source.Memory
import HelpAudit.Proofs.Source.Texts

/-! The texts of a tree in memory, under the paths to their files. -/
namespace HelpAudit.FileTree

open Resource (Segment IsPlain)

/-- The texts of a tree by the paths of their resources. -/
def resources (t : FileTree) : List (String × String) :=
  t.texts.map fun f => (Resource.render f.1, f.2)

variable {t : FileTree} {segs : List Segment} {path folder glob text : String}
  {atoms : List Glob.Atom}

namespace IsTextTree

variable (h : IsTextTree t)
include h

/-- Below a folder each text has a path of its own. -/
theorem nodup_map_render (hplain : ∀ s ∈ segs, IsPlain s) :
    ((t.texts.map (·.1)).map fun trail => Resource.render (segs ++ trail)).Nodup := by
  have hpath {trail : List Segment} (htrail : trail ∈ t.texts.map (·.1)) :
      ∀ s ∈ segs ++ trail, IsPlain s := by
    obtain ⟨f, hf, rfl⟩ := List.mem_map.mp htrail
    exact List.forall_mem_append.mpr ⟨hplain, h.isPlain_of_mem_texts hf⟩
  refine h.nodup_texts.map_on fun a ha b hb heq => ?_
  exact List.append_cancel_left (Resource.render_injOn (hpath ha) (hpath hb) heq)

theorem nodup_resources : (t.resources.map (·.1)).Nodup := by
  have hnodup := h.nodup_map_render (List.forall_mem_nil IsPlain)
  rw [List.map_map] at hnodup
  rwa [resources, List.map_map]

theorem find?_resources : NameMap.find? (Memory.ofList t.resources) path = some text ↔
    ∃ segs, (segs, text) ∈ t.texts ∧ Resource.render segs = path := by
  have hcanonical : ∀ f ∈ t.resources, Resource.IsCanonical f.1 := by
    intro f hf
    obtain ⟨⟨segs, text⟩, hmem, rfl⟩ := List.mem_map.mp hf
    exact ⟨segs, h.isPlain_of_mem_texts hmem, rfl⟩
  have hlookup : t.resources.lookup path = some text ↔ (path, text) ∈ t.resources :=
    ⟨NameMap.mem_of_lookup_eq_some, NameMap.lookup_eq_some_of_mem h.nodup_resources⟩
  rw [Memory.find?_ofList hcanonical h.nodup_resources, hlookup, resources, List.mem_map]
  constructor
  · rintro ⟨⟨segs, s⟩, hmem, heq⟩
    obtain ⟨hrender, rfl⟩ := Prod.mk.inj heq
    exact ⟨segs, hmem, hrender⟩
  · rintro ⟨segs, hmem, rfl⟩
    exact ⟨_, hmem, rfl⟩

/-- The memory holds a text under a path when the path leads to its file. -/
theorem find?_render (hplain : ∀ s ∈ segs, IsPlain s) :
    NameMap.find? (Memory.ofList t.resources) (Resource.render segs) =
      (t.node? segs).bind text? := by
  ext text
  rw [h.find?_resources, Option.bind_eq_some_iff]
  constructor
  · rintro ⟨other, hmem, hrender⟩
    obtain rfl := Resource.render_injOn (h.isPlain_of_mem_texts hmem) hplain hrender
    exact ⟨_, h.mem_texts_iff.mp hmem, rfl⟩
  · rintro ⟨u, hu, htext⟩
    cases u with
    | folder => cases htext
    | file s =>
      obtain rfl : s = some text := htext
      exact ⟨_, h.mem_texts_iff.mpr hu, rfl⟩

/-- A folder lists the files to which paths go on from it. -/
theorem mem_list_resources (hfolder : t.isFolder = true) (hglob : Glob.parse? glob = some atoms) :
    path ∈ Memory.list (Memory.ofList t.resources) folder glob ↔
      ∃ trail text, trail ≠ [] ∧ (Resource.segments folder ++ trail, text) ∈ t.texts ∧
        Glob.matchesName atoms (trail.getLast?.getD []) = true ∧
        path = Resource.render (Resource.segments folder ++ trail) := by
  have hfolder' := Resource.isPlain_segments folder
  have hpath {segs : List Segment} {text : String} (hmem : (segs, text) ∈ t.texts) :
      segs ≠ [] ∧ ∀ s ∈ segs, IsPlain s :=
    ⟨h.ne_nil_of_mem_texts hfolder hmem, h.isPlain_of_mem_texts hmem⟩
  rw [Memory.mem_list hglob, NameMap.contains, Option.isSome_iff_exists]
  simp only [h.find?_resources]
  constructor
  · rintro ⟨⟨text, segs, hmem, rfl⟩, hbelow, hmatch⟩
    obtain ⟨hne, hplain⟩ := hpath hmem
    obtain ⟨trail, htrail, rfl⟩ := (Resource.isSome_below?_render hfolder' hplain hne).mp hbelow
    rw [Resource.leaf_render hne hplain, String.toList_ofList,
      List.getLast?_append_of_ne_nil _ htrail] at hmatch
    exact ⟨trail, text, htrail, hmem, hmatch, rfl⟩
  · rintro ⟨trail, text, htrail, hmem, hmatch, rfl⟩
    obtain ⟨hne, hplain⟩ := hpath hmem
    refine ⟨⟨text, _, hmem, rfl⟩, ?_, ?_⟩
    · exact (Resource.isSome_below?_render hfolder' hplain hne).mpr ⟨trail, htrail, rfl⟩
    · rwa [Resource.leaf_render hne hplain, String.toList_ofList,
        List.getLast?_append_of_ne_nil _ htrail]

end IsTextTree

end HelpAudit.FileTree
