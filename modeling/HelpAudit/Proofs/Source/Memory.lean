import HelpAudit.Proofs.NameMap
import HelpAudit.Proofs.Resource
import HelpAudit.Source.Memory

/-! Texts in memory stand under canonical paths, and what is listed can be read. -/
namespace HelpAudit.Memory

/-- Each path that is held is canonical. -/
def Canonical (m : Memory) : Prop :=
  ∀ path text, NameMap.find? m path = some text → Resource.normalize path = path

theorem canonical_put {m : Memory} (h : m.Canonical) (path text : String) :
    (put m path text).Canonical := by
  intro p t hp
  rw [put, NameMap.find?_insert] at hp
  split at hp
  · next heq => rw [heq, Resource.normalize_normalize]
  · exact h p t hp

theorem canonical_ofList (files : List (String × String)) : (ofList files).Canonical := by
  suffices h : ∀ m : Memory, m.Canonical →
      Canonical (files.foldl (fun m f => put m f.1 f.2) m) from
    h NameMap.empty fun _ _ hp => by simp at hp
  induction files with
  | nil => exact fun m h => h
  | cons f files ih => exact fun m h => ih _ (canonical_put h f.1 f.2)

/-- The resources of a memory are the canonical paths of all that was put into it. -/
theorem contains_ofList {files : List (String × String)} {path : String} :
    NameMap.contains (ofList files) path = true ↔
      path ∈ files.map fun f => Resource.normalize f.1 := by
  have hinsert : ofList files = (files.map fun f => (Resource.normalize f.1, f.2)).foldl
      (fun m e => m.insert e.1 e.2) NameMap.empty := by
    rw [List.foldl_map]
    rfl
  rw [hinsert, NameMap.contains_foldl_insert, List.map_map]
  simp [NameMap.contains]

/-- Texts under different canonical paths are all kept. -/
theorem find?_ofList {files : List (String × String)}
    (hc : ∀ f ∈ files, Resource.IsCanonical f.1) (hs : (files.map (·.1)).Nodup) (path : String) :
    NameMap.find? (ofList files) path = files.lookup path := by
  have hinsert : ofList files = files.foldl (fun m f => m.insert f.1 f.2) NameMap.empty :=
    List.foldl_ext _ _ _ fun m f hf => by rw [put, Resource.isCanonical_iff.mp (hc f hf)]
  rw [hinsert, NameMap.find?_foldl_insert hs]
  exact Option.or_none

/-- A text that is put hides no resource. -/
theorem holds_put {m : Memory} {r : String} (h : m.source.holds r = true) (path text : String) :
    (put m path text).source.holds r = true := by
  show NameMap.contains (put m path text) (Resource.normalize r) = true
  rw [put, NameMap.contains, NameMap.find?_insert]
  split
  · rfl
  · exact h

theorem mem_list {m : Memory} {folder glob path : String} {atoms : List Glob.Atom}
    (hglob : Glob.parse? glob = some atoms) : path ∈ list m folder glob ↔
      NameMap.contains m path = true ∧
        (Resource.below? (Resource.normalize folder) path).isSome = true ∧
        Glob.matchesName atoms (Resource.leaf path).toList = true := by
  rw [list, hglob]
  dsimp only
  rw [List.mem_filter, NameMap.mem_names_iff, Bool.and_eq_true]

theorem pairwise_list (m : Memory) (folder glob : String) :
    (list m folder glob).Pairwise (· < ·) := by
  unfold list
  split
  · exact List.Pairwise.nil
  · exact m.names_pairwise.filter _

theorem contains_of_mem_list {m : Memory} {folder glob path : String}
    (h : path ∈ list m folder glob) : NameMap.contains m path = true := by
  unfold list at h
  split at h
  · simp at h
  · exact NameMap.mem_names_iff.mp (List.mem_filter.mp h).1

theorem normalize_of_mem_list {m : Memory} (h : m.Canonical) {folder glob path : String}
    (hp : path ∈ list m folder glob) : Resource.normalize path = path := by
  obtain ⟨text, ht⟩ := Option.isSome_iff_exists.mp (contains_of_mem_list hp)
  exact h path text ht

theorem isCanonical_of_mem_list {files : List (String × String)} {folder glob path : String}
    (h : path ∈ ((ofList files).source.list folder glob).value) : Resource.IsCanonical path :=
  Resource.isCanonical_iff.mpr (normalize_of_mem_list (canonical_ofList files) h)

/-- What is listed depends on the paths alone. -/
theorem list_eq_of_contains {m m' : Memory}
    (h : ∀ path, NameMap.contains m path = NameMap.contains m' path) (folder glob : String) :
    list m folder glob = list m' folder glob := by
  unfold list
  rw [NameMap.names_eq_of_contains h]

/-- A listed resource has a text, under every spelling of its path. -/
theorem exists_content_of_mem_list {files : List (String × String)}
    {folder glob path spelling : String} (h : path ∈ list (ofList files) folder glob)
    (hs : Resource.normalize spelling = Resource.normalize path) :
    ∃ text, (source (ofList files)).content spelling = some text := by
  obtain ⟨text, ht⟩ := Option.isSome_iff_exists.mp (contains_of_mem_list h)
  refine ⟨text, ?_⟩
  change NameMap.find? (ofList files) (Resource.normalize spelling) = some text
  rw [hs, canonical_ofList files path text ht, ht]

end HelpAudit.Memory
