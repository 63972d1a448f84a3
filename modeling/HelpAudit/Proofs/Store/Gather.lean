import HelpAudit.Proofs.Index.Identity
import HelpAudit.Proofs.Source.Memory
import HelpAudit.Store

/-! What a full load finds: each package has the index at the first listed location that holds an
index of its name. -/
namespace HelpAudit.Store

variable {source : Source} {location name : String} {ix : Index}

/-- The index at a location, if the text there loads. -/
def indexAt? (source : Source) (location : String) : Option Index :=
  (loadAt source location).value.toOption

/-- The index at a location, if it is one of the package `name`. -/
def packageAt? (source : Source) (name location : String) : Option Index :=
  (indexAt? source location).filter (·.package == name)

theorem indexAt?_eq_some_iff_loadAt :
    indexAt? source location = some ix ↔ (loadAt source location).value = .ok ix := by
  unfold indexAt?
  cases (loadAt source location).value with
  | error e => simp [Except.toOption]
  | ok jx => simp [Except.toOption]

theorem indexAt?_eq_some_iff : indexAt? source location = some ix ↔
    ∃ text, source.content location = some text ∧ (Index.load text location).value = .ok ix := by
  rw [indexAt?_eq_some_iff_loadAt, loadAt]
  cases source.content location with
  | none => simp
  | some text => simp

theorem packageAt?_eq_some_iff : packageAt? source name location = some ix ↔
    indexAt? source location = some ix ∧ ix.package = name := by
  rw [packageAt?, Option.filter_eq_some_iff, beq_iff_eq]

/-- The index that a text in memory at a canonical path loads as lies at this path. -/
theorem location_of_indexAt? {m : Memory} (hl : Resource.normalize location = location)
    (h : indexAt? m.source location = some ix) : ix.location = location ∧
      ∃ text, NameMap.find? m location = some text ∧
        (Index.load text location).value = .ok ix := by
  obtain ⟨text, hcontent, hload⟩ := indexAt?_eq_some_iff.mp h
  change NameMap.find? m (Resource.normalize location) = some text at hcontent
  rw [hl] at hcontent
  have hlies := (Index.liesAt_of_load hload).location_eq
  exact ⟨hlies.trans hl, text, hcontent, hload⟩

/-- Where the texts are the same, so are the indexes. -/
theorem indexAt?_eq_of_find?_eq {m m' : Memory} (hl : Resource.normalize location = location)
    (h : NameMap.find? m location = NameMap.find? m' location) :
    indexAt? m.source location = indexAt? m'.source location := by
  have hcontent : m.source.content location = m'.source.content location := by
    change NameMap.find? m (Resource.normalize location) =
      NameMap.find? m' (Resource.normalize location)
    rw [hl, h]
  rw [indexAt?, indexAt?, loadAt, loadAt, hcontent]

/-- One more location adds its index unless the package has one. -/
theorem find?_addLocation (source : Source) (catalog : Catalog) (location name : String) :
    (addLocation source catalog location).value.find? name =
      (catalog.find? name).or (packageAt? source name location) := by
  rw [addLocation, packageAt?, indexAt?, Logged.bind_value]
  cases (loadAt source location).value with
  | error e =>
    change catalog.find? name = (catalog.find? name).or none
    rw [Option.or_none]
  | ok ix =>
    simp only [Except.toOption, addIndex]
    by_cases hname : name = ix.package
    · subst hname
      cases hc : catalog.find? ix.package with
      | none => simp [Option.filter_some]
      | some kept => simp [hc]
    · have hne : (ix.package == name) = false := beq_false_of_ne (Ne.symm hname)
      rw [Option.filter_some, hne, if_neg Bool.false_ne_true, Option.or_none]
      cases catalog.find? ix.package with
      | none => simp [hname]
      | some kept => rfl

theorem find?_gather (source : Source) (catalog : Catalog) (locations : List String)
    (name : String) : (gather source catalog locations).value.find? name =
      (catalog.find? name).or (locations.findSome? (packageAt? source name)) := by
  induction locations generalizing catalog with
  | nil => simp [gather]
  | cons l ls ih =>
    rw [gather, Logged.bind_value, ih, find?_addLocation, Option.or_assoc, List.findSome?_cons]
    cases packageAt? source name l with
    | none => rw [Option.none_or]
    | some ix => rw [Option.some_or]

/-- A full load finds for each package the first listed index of its name. -/
theorem find?_reloadAll (st : Store) (source : Source) (name : String) :
    (st.reloadAll source).value.catalog.find? name =
      (source.list "" st.indexName).value.findSome? (packageAt? source name) := by
  rw [reloadAll, Logged.bind_value, Logged.bind_value, Logged.pure_value, find?_gather,
    NameMap.find?_empty, Option.none_or]

/-- Each entry has the name of its package, and lies at one of the listed locations. -/
theorem liesAt_of_find?_reloadAll {st : Store}
    (h : (st.reloadAll source).value.catalog.find? name = some ix) :
    ix.package = name ∧ ∃ location ∈ (source.list "" st.indexName).value, ix.LiesAt location := by
  rw [find?_reloadAll] at h
  obtain ⟨location, hl, hat⟩ := List.exists_of_findSome?_eq_some h
  obtain ⟨hat, hpackage⟩ := packageAt?_eq_some_iff.mp hat
  obtain ⟨text, -, hload⟩ := indexAt?_eq_some_iff.mp hat
  exact ⟨hpackage, location, hl, Index.liesAt_of_load hload⟩

/-- Each entry comes from a listed location, where the index lies. -/
theorem location_of_find?_reloadAll {st : Store} {m : Memory} (hm : m.Canonical)
    (h : (st.reloadAll m.source).value.catalog.find? name = some ix) :
    ix.location ∈ m.list "" st.indexName ∧ ix.package = name ∧
      indexAt? m.source ix.location = some ix := by
  rw [find?_reloadAll] at h
  obtain ⟨location, hl, hat⟩ := List.exists_of_findSome?_eq_some h
  obtain ⟨hat, hpackage⟩ := packageAt?_eq_some_iff.mp hat
  obtain ⟨rfl, -⟩ := location_of_indexAt? (Memory.normalize_of_mem_list hm hl) hat
  exact ⟨hl, hpackage, hat⟩

end HelpAudit.Store
