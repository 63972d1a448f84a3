import HelpAudit.Proofs.Store.Gather
import HelpAudit.Proofs.Store.Reload

/-!
Reloads one by one against a full load. When packages get new index texts that still load as theirs,
reloading just these packages, in whatever order, gives the store that a full load gives. Locations
that fail to load, or that hold a package which stands elsewhere, do not come in between.
-/
namespace HelpAudit.Store

/-- Reloads the packages in turn, up to the first that fails. -/
def reloadEach (st : Store) (source : Source) :
    List String → Logged (Except Index.LoadError Store)
  | [] => pure (.ok st)
  | p :: ps => do
    match ← st.reload source p with
    | .ok (_, next) => next.reloadEach source ps
    | .error e => return .error e

/-- The indexes of the packages have new texts, which load under the same names, and all other
texts are as they were. -/
structure Reworded (catalog : Catalog) (packages : List String) (old new : Memory) : Prop where
  loads : ∀ p ∈ packages, ∃ ix text fresh, catalog.find? p = some ix ∧
    NameMap.find? new ix.location = some text ∧
    (Index.load text ix.location).value = .ok fresh ∧ fresh.package = p
  others : ∀ path, (∀ p ∈ packages, ∀ ix, catalog.find? p = some ix → path ≠ ix.location) →
    NameMap.find? new path = NameMap.find? old path

/-- The index that now stands where the old one lies. -/
def renewed? (source : Source) (ix : Index) : Option Index := indexAt? source ix.location

variable {source : Source} {st : Store}

/-- Reading an index again gives one of the same package in the same place. -/
structure Renews (source : Source) (current fresh : Index) : Prop where
  read : renewed? source current = some fresh
  package_eq : fresh.package = current.package
  location_eq : fresh.location = current.location

theorem Renews.again {current fresh : Index} (h : Renews source current fresh) :
    Renews source fresh fresh where
  read := by rw [renewed?, h.location_eq, ← renewed?, h.read]
  package_eq := rfl
  location_eq := rfl

/-- Under its old name the index that is read again takes the place of the old one. -/
theorem reload_of_renews {current fresh : Index}
    (hcurrent : st.catalog.find? current.package = some current)
    (h : Renews source current fresh) : ∃ next,
      (st.reload source current.package).value = .ok (fresh, next) ∧
      next.indexName = st.indexName ∧ ∀ name, next.catalog.find? name =
        if name = current.package then some fresh else st.catalog.find? name := by
  let next : Store := { st with
    catalog := (st.catalog.erase current.package).insert fresh.package fresh }
  have hload := indexAt?_eq_some_iff_loadAt.mp h.read
  have hreload : (st.reload source current.package).value = .ok (fresh, next) := by
    rw [reload, hcurrent]
    simp only [Logged.bind_value, hload]
    rfl
  refine ⟨next, hreload, rfl, fun name => ?_⟩
  rw [find?_reload hreload, h.package_eq]
  split
  · rfl
  · rfl

/-- Reloads in turn renew the entries of the packages and keep the others. -/
theorem reloadEach_of_renews {packages : List String}
    (h : ∀ p ∈ packages, ∃ current fresh, st.catalog.find? p = some current ∧
      current.package = p ∧ Renews source current fresh) :
    ∃ last, (st.reloadEach source packages).value = .ok last ∧ last.indexName = st.indexName ∧
      ∀ name, last.catalog.find? name =
        if name ∈ packages then (st.catalog.find? name).bind (renewed? source)
        else st.catalog.find? name := by
  induction packages generalizing st with
  | nil => exact ⟨st, rfl, rfl, fun name => by simp⟩
  | cons p ps ih =>
    obtain ⟨current, fresh, hcurrent, rfl, hrenews⟩ := h p List.mem_cons_self
    obtain ⟨next, hreload, hname, hnext⟩ := reload_of_renews hcurrent hrenews
    have hlater : ∀ q ∈ ps, ∃ current fresh, next.catalog.find? q = some current ∧
        current.package = q ∧ Renews source current fresh := by
      intro q hq
      rw [hnext]
      split
      · next heq => exact ⟨fresh, fresh, rfl, heq ▸ hrenews.package_eq, hrenews.again⟩
      · exact h q (List.mem_cons_of_mem _ hq)
    obtain ⟨last, heach, hname', hlast⟩ := ih hlater
    refine ⟨last, ?_, hname'.trans hname, fun name => ?_⟩
    · rw [reloadEach, Logged.bind_value, hreload]
      exact heach
    · rw [hlast, hnext]
      by_cases heq : name = current.package
      · -- Whether or not the package comes again, its entry is now the renewed one.
        subst heq
        rw [if_pos rfl, if_pos List.mem_cons_self, hcurrent, Option.bind_some, Option.bind_some,
          hrenews.read]
        split
        · exact hrenews.again.read
        · rfl
      · simp [heq]

variable {packages : List String} {old new : Memory}

/-- Renewing what a search found is searching for what is renewed. -/
theorem findSome?_bind {f g : String → Option Index} {renew : Index → Option Index}
    {locations : List String}
    (h : ∀ l ∈ locations, (f l = none ∧ g l = none) ∨
      ∃ ix, f l = some ix ∧ g l = renew ix ∧ (renew ix).isSome = true) :
    locations.findSome? g = (locations.findSome? f).bind renew := by
  induction locations with
  | nil => rfl
  | cons l ls ih =>
    rw [List.findSome?_cons, List.findSome?_cons]
    rcases h l List.mem_cons_self with ⟨hf, hg⟩ | ⟨ix, hf, hg, hsome⟩
    · rw [hf, hg]
      exact ih fun m hm => h m (List.mem_cons_of_mem _ hm)
    · obtain ⟨fresh, hfresh⟩ := Option.isSome_iff_exists.mp hsome
      rw [hf, hg, hfresh, Option.bind_some, hfresh]

section
variable (hold : old.Canonical)
  (h : Reworded (st.reloadAll old.source).value.catalog packages old new)
include hold h

/-- The reworded texts stand where there were texts before. -/
theorem contains_of_reworded (path : String) :
    NameMap.contains new path = NameMap.contains old path := by
  by_cases hpath : ∀ p ∈ packages, ∀ ix,
      (st.reloadAll old.source).value.catalog.find? p = some ix → path ≠ ix.location
  · rw [NameMap.contains, NameMap.contains, h.others path hpath]
  · push Not at hpath
    obtain ⟨p, hp, ix, hix, rfl⟩ := hpath
    obtain ⟨ix', text, -, hix', htext, -, -⟩ := h.loads p hp
    rw [hix] at hix'
    obtain rfl := Option.some.inj hix'
    have hlisted := (location_of_find?_reloadAll hold hix).1
    rw [Memory.contains_of_mem_list hlisted, NameMap.contains, htext, Option.isSome_some]

/-- At each listed location stands an index of the package that stood there before, or none. -/
theorem renews_of_reworded {location : String} (hl : location ∈ old.list "" st.indexName) :
    (indexAt? old.source location = none ∧ indexAt? new.source location = none) ∨
      ∃ ix fresh, indexAt? old.source location = some ix ∧ ix.location = location ∧
        Renews new.source ix fresh := by
  have hnormal := Memory.normalize_of_mem_list hold hl
  by_cases hpath : ∀ p ∈ packages, ∀ ix,
      (st.reloadAll old.source).value.catalog.find? p = some ix → location ≠ ix.location
  · have hsame := indexAt?_eq_of_find?_eq hnormal (h.others location hpath)
    cases hat : indexAt? old.source location with
    | none => exact .inl ⟨rfl, hsame.trans hat⟩
    | some ix =>
      obtain ⟨hplace, -⟩ := location_of_indexAt? hnormal hat
      refine .inr ⟨ix, ix, rfl, hplace, ?_, rfl, rfl⟩
      rw [renewed?, hplace, hsame, hat]
  · push Not at hpath
    obtain ⟨p, hp, ix, hix, rfl⟩ := hpath
    obtain ⟨ix', text, fresh, hix', htext, hload, hpackage⟩ := h.loads p hp
    rw [hix] at hix'
    obtain rfl := Option.some.inj hix'
    obtain ⟨-, hname, hat⟩ := location_of_find?_reloadAll hold hix
    have hcontent : new.source.content ix.location = some text := by
      change NameMap.find? new (Resource.normalize ix.location) = some text
      rw [hnormal, htext]
    have hfresh : indexAt? new.source ix.location = some fresh :=
      indexAt?_eq_some_iff.mpr ⟨text, hcontent, hload⟩
    exact .inr ⟨ix, fresh, hat, rfl, hfresh, hpackage.trans hname.symm,
      (location_of_indexAt? hnormal hfresh).1⟩

/-- A full load of the new texts renews each entry in its place. -/
theorem find?_reloadAll_of_reworded (name : String) :
    (st.reloadAll new.source).value.catalog.find? name =
      ((st.reloadAll old.source).value.catalog.find? name).bind (renewed? new.source) := by
  have hlist : new.list "" st.indexName = old.list "" st.indexName :=
    Memory.list_eq_of_contains (contains_of_reworded hold h) "" st.indexName
  rw [find?_reloadAll, find?_reloadAll]
  change (new.list "" st.indexName).findSome? _ = ((old.list "" st.indexName).findSome? _).bind _
  rw [hlist]
  refine findSome?_bind fun location hl => ?_
  rcases renews_of_reworded hold h hl with ⟨hnone, hnone'⟩ | ⟨ix, fresh, hat, rfl, hrenews⟩
  · left
    rw [packageAt?, packageAt?, hnone, hnone']
    exact ⟨rfl, rfl⟩
  · have hat' : indexAt? new.source ix.location = some fresh := hrenews.read
    by_cases hname : ix.package = name
    · right
      refine ⟨ix, packageAt?_eq_some_iff.mpr ⟨hat, hname⟩, ?_, ?_⟩
      · rw [hrenews.read]
        exact packageAt?_eq_some_iff.mpr ⟨hat', hrenews.package_eq.trans hname⟩
      · rw [hrenews.read, Option.isSome_some]
    · left
      have hne : (ix.package == name) = false := beq_false_of_ne hname
      rw [packageAt?, packageAt?, hat, hat', Option.filter_some, Option.filter_some,
        hrenews.package_eq, hne]
      exact ⟨rfl, rfl⟩

/-- The entry of a package whose text is as it was is renewed by itself. -/
theorem renewed?_of_not_mem {name : String} {ix : Index} (hname : name ∉ packages)
    (hix : (st.reloadAll old.source).value.catalog.find? name = some ix) :
    renewed? new.source ix = some ix := by
  obtain ⟨hlisted, rfl, hat⟩ := location_of_find?_reloadAll hold hix
  have hpath : ∀ p ∈ packages, ∀ jx,
      (st.reloadAll old.source).value.catalog.find? p = some jx → ix.location ≠ jx.location := by
    intro p hp jx hjx heq
    obtain ⟨-, rfl, hat'⟩ := location_of_find?_reloadAll hold hjx
    rw [← heq, hat] at hat'
    exact hname (Option.some.inj hat' ▸ hp)
  have hnormal := Memory.normalize_of_mem_list hold hlisted
  rw [renewed?, indexAt?_eq_of_find?_eq hnormal (h.others _ hpath), hat]

end

/-- After a full load, packages get new texts that load under their names. Reloading each of them,
in any order, succeeds and leads to the store of another full load. -/
theorem reloadEach_eq_reloadAll {files : List (String × String)} {earlier : Store}
    {order : List String} (hst : st = (earlier.reloadAll (Memory.ofList files).source).value)
    (h : Reworded st.catalog packages (Memory.ofList files) new)
    (horder : ∀ p, p ∈ order ↔ p ∈ packages) :
    (st.reloadEach new.source order).value = .ok (st.reloadAll new.source).value := by
  have hold := Memory.canonical_ofList files
  subst hst
  have hrenews : ∀ p ∈ order, ∃ current fresh,
      (earlier.reloadAll (Memory.ofList files).source).value.catalog.find? p = some current ∧
      current.package = p ∧ Renews new.source current fresh := by
    intro p hp
    obtain ⟨ix, -, -, hix, -⟩ := h.loads p ((horder p).mp hp)
    obtain ⟨hlisted, hname, hat⟩ := location_of_find?_reloadAll hold hix
    rcases renews_of_reworded hold h hlisted with ⟨hnone, -⟩ | ⟨ix', fresh, hat', -, hrenews⟩
    · rw [hat] at hnone
      cases hnone
    · rw [hat] at hat'
      obtain rfl := Option.some.inj hat'
      exact ⟨ix, fresh, hix, hname, hrenews⟩
  obtain ⟨last, heach, hindex, hlast⟩ := reloadEach_of_renews hrenews
  rw [heach]
  have hcatalog : last.catalog = (earlier.reloadAll new.source).value.catalog := by
    refine NameMap.ext_find? fun name => ?_
    rw [hlast, find?_reloadAll_of_reworded hold h]
    split
    · rfl
    · next hnot =>
      cases hix : (earlier.reloadAll (Memory.ofList files).source).value.catalog.find? name with
      | none => rfl
      | some ix =>
        have hname : name ∉ packages := fun hp => hnot ((horder name).mpr hp)
        rw [Option.bind_some, renewed?_of_not_mem hold h hname hix]
  obtain ⟨indexName, catalog⟩ := last
  obtain rfl : catalog = _ := hcatalog
  obtain rfl : indexName = _ := hindex
  rfl

def home (package : String) : String := package ++ "/help/hyperhelp.json"

def manifestOf (package description : String) : String :=
  "\x7b\"package\":\"" ++ package ++ "\",\"description\":\"" ++ description ++ "\"\x7d"

/-- Two packages, one of them with a second index, and an index that does not load. -/
def shelf : Memory :=
  Memory.ofList [(home "A", manifestOf "A" "Old"), (home "B", manifestOf "B" "Old"),
    (home "C", "\x7b"), (home "D", manifestOf "A" "Copy")]

def newShelf : Memory :=
  (shelf.put (home "A") (manifestOf "A" "New")).put (home "B") (manifestOf "B" "New")

def shelved : Store := ((Store.new "hyperhelp.json").reloadAll shelf.source).value

theorem reworded_shelf : Reworded shelved.catalog ["A", "B"] shelf newShelf := by
  have hnormal : ∀ p ∈ ["A", "B"], Resource.normalize (home p) = home p := by decide +kernel
  have hfound : ∀ p ∈ ["A", "B"], ∃ ix, shelved.catalog.find? p = some ix ∧
      ix.location = home p := by
    have hlocations : ∀ p ∈ ["A", "B"], (shelved.catalog.find? p).map (·.location) =
        some (home p) := by decide +kernel
    exact fun p hp => Option.map_eq_some_iff.mp (hlocations p hp)
  constructor
  case loads =>
    have hloads : ∀ p ∈ ["A", "B"], (indexAt? newShelf.source (home p)).map (·.package) =
        some p := by decide +kernel
    intro p hp
    obtain ⟨ix, hix, hlocation⟩ := hfound p hp
    obtain ⟨fresh, hfresh, hpackage⟩ := Option.map_eq_some_iff.mp (hloads p hp)
    obtain ⟨-, text, htext, hload⟩ := location_of_indexAt? (hnormal p hp) hfresh
    exact ⟨ix, text, fresh, hix, hlocation ▸ htext, hlocation ▸ hload, hpackage⟩
  case others =>
    intro path hpath
    have hne : ∀ p ∈ ["A", "B"], path ≠ home p := by
      intro p hp
      obtain ⟨ix, hix, hlocation⟩ := hfound p hp
      exact hlocation ▸ hpath p hp ix hix
    rw [newShelf, Memory.put, Memory.put, NameMap.find?_insert, NameMap.find?_insert,
      hnormal "A" (by decide), hnormal "B" (by decide), if_neg (hne "B" (by decide)),
      if_neg (hne "A" (by decide))]

theorem shelved_reloadEach :
    Reworded shelved.catalog ["A", "B"] shelf newShelf ∧
      (shelved.reloadEach newShelf.source ["B", "A"]).value =
        .ok (shelved.reloadAll newShelf.source).value ∧
      (shelved.reloadAll newShelf.source).value.catalog.entries.map
        (fun e => (e.1, e.2.location, e.2.description)) =
          [("A", home "A", "New"), ("B", home "B", "New")] := by
  refine ⟨reworded_shelf, reloadEach_eq_reloadAll rfl reworded_shelf ?_, by decide +kernel⟩
  intro p
  simp [or_comm]

end HelpAudit.Store
