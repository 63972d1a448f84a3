import HelpAudit.Proofs.Store.Gather
import HelpAudit.Proofs.Target.Owner

/-!
What an index file asks for. The documentation folder of a package need not hold the index file, and
packages may share folders. An index file asks for its own package exactly when this package is the
owner of the file.
-/
namespace HelpAudit.Target

open Resource (IsCanonical)

variable {catalog : Catalog} {name : String} {ix : Index}

/-- In a catalog of packages under their own names, an index file asks for the package that owns
the file. -/
theorem resolve?_location_iff_isOwner (hroots : ∀ jx ∈ catalog.values, IsCanonical jx.docRoot)
    (hnames : ∀ other jx, catalog.find? other = some jx → jx.package = other)
    (hfound : catalog.find? name = some ix)
    (hlocation : Resource.normalize ix.location = ix.location) :
    resolve? catalog ix.location = some (wholePackage ix) ↔
      IsOwner catalog ix.location name ix := by
  have hroot : IsCanonical ix.docRoot := hroots ix (NameMap.mem_values_iff.mpr ⟨name, hfound⟩)
  constructor
  · intro h
    obtain ⟨jx, howner, -⟩ := Option.map_eq_some_iff.mp h
    obtain ⟨other, hjx⟩ := isOwner_of_owner? hroots howner
    have hjroot : IsCanonical jx.docRoot :=
      hroots jx (NameMap.mem_values_iff.mpr ⟨other, hjx.found⟩)
    obtain ⟨t, ht, htarget, -⟩ := exists_target hjroot hjx.encloses howner
    obtain rfl : wholePackage ix = t := Option.some.inj (h.symm.trans ht)
    obtain rfl : ix = jx := htarget
    obtain rfl : name = other := (hnames _ _ hfound).symm.trans (hnames _ _ hjx.found)
    exact hjx
  · intro h
    have howner := (owner?_eq_some_iff hroots).mpr ⟨name, h⟩
    obtain ⟨t, ht, rfl, hasks⟩ := exists_target hroot h.encloses howner
    rw [ht, ← hasks.eq_wholePackage (.inr hlocation)]

/-- The index file of a loaded package asks for the whole package exactly when the documentation
folder encloses the file, and each other package that encloses it has a folder around this one, or
the same folder and an earlier name. It asks for nothing exactly when no package encloses it. -/
theorem resolve?_location_iff {st : Store} {source : Source}
    (h : (st.reloadAll source).value.catalog.find? name = some ix) :
    (resolve? (st.reloadAll source).value.catalog ix.location = some (wholePackage ix) ↔
      ix.Encloses ix.location ∧
        ∀ other jx, (st.reloadAll source).value.catalog.find? other = some jx →
          jx.Encloses ix.location →
            jx.Encloses ix.docRoot ∧ (jx.docRoot = ix.docRoot → other ≤ name)) ∧
      (resolve? (st.reloadAll source).value.catalog ix.location = none ↔
        ∀ jx ∈ (st.reloadAll source).value.catalog.values, ¬ jx.Encloses ix.location) := by
  have hroots : ∀ jx ∈ (st.reloadAll source).value.catalog.values, IsCanonical jx.docRoot := by
    intro jx hjx
    obtain ⟨other, hjx⟩ := NameMap.mem_values_iff.mp hjx
    obtain ⟨-, location, -, hlies⟩ := Store.liesAt_of_find?_reloadAll hjx
    exact hlies.docRoot_canonical
  have hnames : ∀ other jx, (st.reloadAll source).value.catalog.find? other = some jx →
      jx.package = other := fun other jx hjx => (Store.liesAt_of_find?_reloadAll hjx).1
  have hlocation : Resource.normalize ix.location = ix.location := by
    obtain ⟨-, location, -, hlies⟩ := Store.liesAt_of_find?_reloadAll h
    rw [hlies.location_eq, Resource.normalize_normalize]
  constructor
  · rw [resolve?_location_iff_isOwner hroots hnames h hlocation, isOwner_iff hroots h]
  · rw [resolve?, Option.map_eq_none_iff, owner?_eq_none_iff hroots]

/-- The packages with the locations of their indexes and their documentation folders. -/
def places (catalog : Catalog) : List (String × String × String) :=
  catalog.entries.map fun e => (e.1, e.2.location, e.2.docRoot)

theorem mem_places {location docRoot : String} : (name, location, docRoot) ∈ places catalog ↔
    ∃ ix, catalog.find? name = some ix ∧ ix.location = location ∧ ix.docRoot = docRoot := by
  simp only [places, List.mem_map, Prod.mk.injEq, NameMap.find?_eq_some_iff]
  constructor
  · rintro ⟨⟨other, ix⟩, he, rfl, rfl, rfl⟩
    exact ⟨ix, he, rfl, rfl⟩
  · rintro ⟨ix, he, rfl, rfl⟩
    exact ⟨(name, ix), he, rfl, rfl, rfl⟩

/-- Two packages share the folder `Docs`, which holds the folder and the index file of a third. -/
def nested : Catalog := ((Store.new "hyperhelp.json").reloadAll (Memory.ofList
  [("Docs/hyperhelp.json", "\x7b\"package\":\"Docs\",\"doc_root\":\"\"\x7d"),
    ("Docs/inner/hyperhelp.json", "\x7b\"package\":\"Inner\"\x7d"),
    ("Docs/other/hyperhelp.json", "\x7b\"package\":\"Other\",\"doc_root\":\"/\"\x7d")]).source)
  |>.value.catalog

theorem places_nested : places nested =
    [("Docs", "Docs/hyperhelp.json", "Docs"),
      ("Inner", "Docs/inner/hyperhelp.json", "Docs/inner"),
      ("Other", "Docs/other/hyperhelp.json", "Docs")] := by decide +kernel

/-- The index file of the inner package asks for it. That of the first of the two others lies in the
folder of its package and asks for a file of the second. -/
theorem nested_resolve?_location :
    (∃ ix, nested.find? "Inner" = some ix ∧
      resolve? nested ix.location = some (wholePackage ix)) ∧
    ∃ ix, nested.find? "Docs" = some ix ∧ ix.Encloses ix.location ∧
      resolve? nested ix.location ≠ some (wholePackage ix) := by
  have hfind {name location docRoot : String} (h : (name, location, docRoot) ∈ places nested) :=
    mem_places.mp h
  rw [places_nested] at hfind
  obtain ⟨inner, hinner, hlocation, hroot⟩ :=
    hfind (List.mem_cons_of_mem _ List.mem_cons_self)
  obtain ⟨docs, hdocs, hlocation', hroot'⟩ := hfind List.mem_cons_self
  obtain ⟨other, hother, -, hroot''⟩ :=
    hfind (List.mem_cons_of_mem _ (List.mem_cons_of_mem _ List.mem_cons_self))
  refine ⟨⟨inner, hinner, (resolve?_location_iff hinner).1.mpr ?_⟩, docs, hdocs, ?_, fun h => ?_⟩
  · rw [Index.Encloses, hlocation, hroot]
    refine ⟨by decide +kernel, fun name ix hix _ => ?_⟩
    have hmem : (name, ix.location, ix.docRoot) ∈ places nested :=
      mem_places.mpr ⟨ix, hix, rfl, rfl⟩
    rw [places_nested] at hmem
    simp only [List.mem_cons, Prod.mk.injEq, List.not_mem_nil, or_false] at hmem
    rcases hmem with ⟨rfl, -, hix⟩ | ⟨rfl, -, hix⟩ | ⟨rfl, -, hix⟩ <;>
      rw [Index.Encloses, hix] <;> decide +kernel
  · rw [Index.Encloses, hlocation', hroot']
    decide +kernel
  · have hencloses : other.Encloses docs.location := by
      rw [Index.Encloses, hlocation', hroot'']
      decide +kernel
    have hlast := ((resolve?_location_iff hdocs).1.mp h).2 "Other" other hother hencloses
    exact absurd (hlast.2 (hroot''.trans hroot'.symm)) (by decide)

/-- The index lies next to the documentation folder. -/
def beside : Source := (Memory.ofList [("Docs/hyperhelp.json",
  "\x7b\"package\":\"Docs\",\"doc_root\":\"help\"\x7d")]).source

/-- An index file outside the documentation folder of its package may ask for nothing. -/
theorem not_resolve?_location : ¬ ∀ (st : Store) (source : Source) (name : String) (ix : Index),
    (st.reloadAll source).value.catalog.find? name = some ix →
      resolve? (st.reloadAll source).value.catalog ix.location = some (wholePackage ix) := by
  intro hselects
  have hnone : (((Store.new "hyperhelp.json").reloadAll beside).value.catalog.find? "Docs").any
      (fun ix => (resolve? ((Store.new "hyperhelp.json").reloadAll beside).value.catalog
        ix.location).isNone) = true := by decide +kernel
  obtain ⟨ix, hix, hnone⟩ := (Option.any_eq_true _ _).mp hnone
  have hsome := hselects _ _ "Docs" ix hix
  rw [Option.isNone_iff_eq_none.mp hnone] at hsome
  cases hsome

end HelpAudit.Target
