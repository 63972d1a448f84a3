import HelpAudit.Proofs.FileTree
import HelpAudit.Proofs.Route
import HelpAudit.Source.Disk

/-!
Files that are named by their paths. A path below the root names a resource, and the text of the
resource is that of the file at the path.
-/
namespace HelpAudit

open FilePath (LeadsDown components isAbsolute steps)
open Resource (Segment IsPlain)

namespace FileTree

variable {t : FileTree} {cwd path root : String} {p : Place}

/-- Segments behind a root lead to where a path leads that has the same steps. The root is walked
through, so it has to be a folder even if the path ends there. -/
theorem placeOf?_of_steps {segs : List Segment} (hplain : ∀ s ∈ segs, IsPlain s)
    (hroot : isAbsolute root = true) (hsteps : steps path = steps root ++ segs)
    (hfound : (FilePath.pieces path).foldlM Place.walk? (.top t) = some p)
    (hfile : p.node.isFile = true → segs ≠ []) :
    t.placeOf? root (Resource.render segs) = some p := by
  have hwalk := Place.walk_steps hfound
  change (steps path).foldlM Place.walk? (.top t) = some p at hwalk
  rw [hsteps, List.foldlM_append] at hwalk
  obtain ⟨q, hq, hrest⟩ := Option.bind_eq_some_iff.mp hwalk
  have hfolder : q.node.isFolder = true := by
    cases hnode : q.node with
    | folder es => rfl
    | file text =>
      have hstuck := Place.walk?_of_isFile (p := q) (by rw [hnode]; rfl)
      cases segs with
      | nil =>
        cases hrest
        exact absurd rfl (hfile (by rw [hnode]; rfl))
      | cons s segs =>
        rw [List.foldlM_cons, hstuck] at hrest
        cases hrest
  rw [placeOf?, Resource.isCanonical_iff.mp ⟨segs, hplain, rfl⟩,
    find?_of_isAbsolute t "/" (FilePath.isAbsolute_join hroot _),
    walk_join hroot (FilePath.isAbsolute_render hplain), Place.walk_of_steps hfolder hq,
    Option.bind_some, Place.walk_render hplain hfolder]
  exact hrest

theorem source_of_placeOf? {resource : String} (h : t.placeOf? root resource = some p) :
    (t.source root).content resource = p.node.text? ∧
      (t.source root).holds resource = p.node.isFile := by
  rw [source]
  dsimp only
  rw [h]
  exact ⟨rfl, rfl⟩

/-- A path names a resource when it is below the root and does not go up again. The resource is what
the path has behind the root, and if no backslash stands there, it is read from the file of the
path: a relative root lies in the working directory, and is no file itself. -/
theorem resource?_exact (hpath : (components path).head? ≠ some .here)
    (hroot : (components root).head? ≠ some .here) :
    ((FilePath.resource? path root).isSome = true ↔ ∃ more, LeadsDown root path more) ∧
    ∀ more, LeadsDown root path more →
      let resource := Resource.normalize (FilePath.render (more.map (·.text)))
      FilePath.resource? path root = some resource ∧
      ((∀ c ∈ more, '\\' ∉ c.text) →
        components (FilePath.join root resource) = components path ∧
        ∀ (t : FileTree) (cwd : String) (p : Place), isAbsolute cwd = true →
          t.find? cwd path = some p → (p.node.isFile = true → more ≠ []) →
          (t.source (FilePath.join cwd root)).content resource = p.node.text? ∧
            (t.source (FilePath.join cwd root)).holds resource = p.node.isFile) := by
  have hnamed := @FilePath.resource?_eq_some_iff path root hpath hroot
  refine ⟨?_, fun more h => ⟨hnamed.mpr ⟨more, h, rfl⟩, fun hback => ?_⟩⟩
  · rw [Option.isSome_iff_exists]
    constructor
    · rintro ⟨resource, hresource⟩
      obtain ⟨more, h, -⟩ := hnamed.mp hresource
      exact ⟨more, h⟩
    · rintro ⟨more, h⟩
      exact ⟨_, hnamed.mpr ⟨more, h, rfl⟩⟩
  · rw [h.normalize_eq hpath hroot hback]
    refine ⟨h.components_join hpath hroot hback, fun t cwd p hcwd hfound hfile => ?_⟩
    rw [find?, Option.ite_none_left_eq_some] at hfound
    have hne : p.node.isFile = true → more.map (·.text) ≠ [] := fun hp hnil =>
      hfile hp (List.map_eq_nil_iff.mp hnil)
    exact source_of_placeOf? (placeOf?_of_steps (h.isPlain hpath hroot hback)
      (FilePath.isAbsolute_join hcwd root) (h.steps_join hpath hroot cwd) hfound.2 hne)

/-- A packages directory beside the working directory. -/
def besideWork : FileTree :=
  .folder [("work", .folder []),
    ("packages", .folder [("Docs", .folder [("a.txt", .file (some "*x*"))])])]

/-- Both paths may go up at their start, and no path leads down that goes up behind the root. -/
theorem besideWork_resource?_exact :
    let root := "..//packages/."
    let path := "../packages/Docs/./a.txt"
    (components path).head? ≠ some .here ∧ (components root).head? ≠ some .here ∧
      LeadsDown root path [.name "Docs".toList, .name "a.txt".toList] ∧
      FilePath.resource? path root = some "Docs/a.txt" ∧
      components (FilePath.join root "Docs/a.txt") = components path ∧
      (besideWork.source (FilePath.join "/work" root)).content "Docs/a.txt" = some "*x*" ∧
      (besideWork.source (FilePath.join "/work" root)).holds "Docs/a.txt" = true ∧
      ¬∃ more, LeadsDown root "../packages/Docs/../../a.txt" more := by
  intro root path
  have hpath : (components path).head? ≠ some .here := by decide +kernel
  have hroot : (components root).head? ≠ some .here := by decide +kernel
  have hdown : LeadsDown root path [.name "Docs".toList, .name "a.txt".toList] :=
    ⟨by decide +kernel, by decide +kernel, by decide +kernel⟩
  obtain ⟨hresource, hnamed⟩ := (resource?_exact hpath hroot).2 _ hdown
  obtain ⟨hjoin, hread⟩ := hnamed (by decide +kernel)
  obtain ⟨p, hfound, hp⟩ : ∃ p, besideWork.find? "/work" path = some p ∧
      (p.node.text?, p.node.isFile) = (some "*x*", true) := by
    have h : (besideWork.find? "/work" path).map (fun p => (p.node.text?, p.node.isFile)) =
        some (some "*x*", true) := by decide +kernel
    exact Option.map_eq_some_iff.mp h
  obtain ⟨htext, hfile⟩ := Prod.mk.inj hp
  obtain ⟨hcontent, hholds⟩ :=
    hread besideWork "/work" p (by decide +kernel) hfound fun _ => List.cons_ne_nil _ _
  have houtside : (FilePath.resource? "../packages/Docs/../../a.txt" root).isSome ≠ true := by
    decide +kernel
  refine ⟨hpath, hroot, hdown, hresource, hjoin, hcontent.trans htext, hholds.trans hfile,
    fun hmore => houtside ?_⟩
  exact (resource?_exact (by decide +kernel) hroot).1.mpr hmore

/-- A backslash is a slash in a resource, so the file of such a name is not found again. -/
example :
    FilePath.resource? "/packages/a\\b.txt" "/packages" = some "a/b.txt" ∧
      components (FilePath.join "/packages" "a/b.txt") ≠ components "/packages/a\\b.txt" := by
  decide +kernel

end FileTree

end HelpAudit
