import HelpAudit.Proofs.Sequence
import HelpAudit.Proofs.Source.Layered
import HelpAudit.Proofs.Store.Rescan

/-!
The account of a full load. Of the listed locations, each either holds the index that is kept for a
package or is left out, and what is left out is in the log.
-/
namespace HelpAudit

namespace Event

def isRepetition : Event → Bool
  | .indexRepeated .. => true
  | _ => false

def isSkip : Event → Bool
  | .indexSkipped _ => true
  | _ => false

def isOmission (e : Event) : Bool := e.isRepetition || e.isSkip

theorem countP_isOmission (es : List Event) :
    es.countP isOmission = es.countP isRepetition + es.countP isSkip := by
  induction es with
  | nil => rfl
  | cons e es ih =>
    have hone : (if e.isOmission then 1 else 0) =
        (if e.isRepetition then 1 else 0) + (if e.isSkip then 1 else 0) := by
      cases e <;> rfl
    rw [List.countP_cons, List.countP_cons, List.countP_cons, ih, hone]
    omega

theorem isOmission_of_isOfTopic {e : Event} (h : Index.isOfTopic e = true) :
    e.isOmission = false := by
  cases e with
  | topicRedeclared => rfl
  | unknownContentsTopic => rfl
  | _ => cases h

end Event

namespace Store

variable {source : Source} {catalog : Catalog} {before locations : List String}
  {location name : String} {ix : Index}

/-- What the log says of a location after the locations before it, unless its index is kept. -/
def omission? (source : Source) (before : List String) (location : String) : Option Event :=
  match (loadAt source location).value with
  | .error e => some (.indexSkipped e)
  | .ok ix => (before.findSome? (packageAt? source ix.package)).map fun kept =>
      .indexRepeated ix.package kept.location location

/-- Loading itself leaves nothing out. -/
theorem filter_events_loadAt (source : Source) (location : String) :
    (loadAt source location).events.filter Event.isOmission = [] := by
  rw [List.filter_eq_nil_iff]
  intro e he
  unfold loadAt at he
  cases hc : source.content location with
  | none => simp [hc] at he
  | some text =>
    rw [hc] at he
    rw [Event.isOmission_of_isOfTopic (Index.isOfTopic_of_mem_events_load e he)]
    exact Bool.false_ne_true

/-- One more location makes the catalog greater by one, unless the log says why not. -/
theorem addLocation_account
    (h : ∀ name, catalog.find? name = before.findSome? (packageAt? source name))
    (location : String) :
    (addLocation source catalog location).events.filter Event.isOmission =
        (omission? source before location).toList ∧
      (addLocation source catalog location).value.size +
        (omission? source before location).toList.length = catalog.size + 1 := by
  rw [addLocation, Logged.bind_events, Logged.bind_value, List.filter_append,
    filter_events_loadAt, List.nil_append, omission?]
  cases (loadAt source location).value with
  | error e => exact ⟨rfl, rfl⟩
  | ok ix =>
    dsimp only
    rw [addIndex, ← h ix.package]
    cases hc : catalog.find? ix.package with
    | some kept => exact ⟨rfl, rfl⟩
    | none => exact ⟨rfl, NameMap.size_insert hc⟩

theorem gather_concat (source : Source) (catalog : Catalog) (locations : List String)
    (location : String) : gather source catalog (locations ++ [location]) =
      gather source catalog locations >>= fun found => addLocation source found location := by
  induction locations generalizing catalog with
  | nil => simp [gather]
  | cons l ls ih => simp only [List.cons_append, gather, ih, bind_assoc]

/-- The log leaves out locations one by one, and the catalog has as many entries as are left. -/
theorem gather_account (source : Source) (locations : List String) :
    (gather source .empty locations).events.filter Event.isOmission =
        filterMapAfter (omission? source) locations ∧
      (gather source .empty locations).value.size +
        (filterMapAfter (omission? source) locations).length = locations.length := by
  -- the last location meets the catalog that the locations before it left
  induction locations using List.reverseRecOn with
  | nil => exact ⟨rfl, rfl⟩
  | append_singleton ls l ih =>
    obtain ⟨hevents, hsize⟩ := ih
    have hfind (name : String) : (gather source .empty ls).value.find? name =
        ls.findSome? (packageAt? source name) := by
      rw [find?_gather, NameMap.find?_empty, Option.none_or]
    obtain ⟨hlast, hgrown⟩ := addLocation_account hfind l
    rw [gather_concat, filterMapAfter_concat]
    constructor
    · rw [Logged.bind_events, List.filter_append, hevents, hlast]
    · rw [Logged.bind_value, List.length_append, List.length_append, List.length_singleton]
      omega

theorem omission?_eq_skip_iff {cause : Index.LoadError} :
    omission? source before location = some (.indexSkipped cause) ↔
      (loadAt source location).value = .error cause := by
  unfold omission?
  cases (loadAt source location).value with
  | error e => simp
  | ok ix => simp only [Option.map_eq_some_iff, reduceCtorEq, and_false, exists_false]

theorem omission?_eq_repetition_iff {package kept ignored : String} :
    omission? source before location = some (.indexRepeated package kept ignored) ↔
      location = ignored ∧ (∃ jx, indexAt? source location = some jx ∧ jx.package = package) ∧
        ∃ ix, before.findSome? (packageAt? source package) = some ix ∧ ix.location = kept := by
  simp only [indexAt?_eq_some_iff_loadAt, omission?]
  cases (loadAt source location).value with
  | error e => simp
  | ok jx =>
    simp only [Option.map_eq_some_iff, Event.indexRepeated.injEq, Except.ok.injEq]
    constructor
    · rintro ⟨ix, hix, rfl, rfl, rfl⟩
      exact ⟨rfl, ⟨jx, rfl, rfl⟩, ix, hix, rfl⟩
    · rintro ⟨rfl, ⟨_, rfl, rfl⟩, ix, hix, rfl⟩
      exact ⟨ix, hix, rfl, rfl, rfl⟩

/-- What is not left out is the first index of its package. -/
theorem omission?_eq_none_iff : omission? source before location = none ↔
    ∃ ix, indexAt? source location = some ix ∧
      before.findSome? (packageAt? source ix.package) = none := by
  simp only [indexAt?_eq_some_iff_loadAt, omission?]
  cases (loadAt source location).value with
  | error e => simp
  | ok ix =>
    rw [Option.map_eq_none_iff]
    simp only [Except.ok.injEq, exists_eq_left']

theorem omission?_cases {e : Event} (h : omission? source before location = some e) :
    (∃ cause, e = .indexSkipped cause ∧ (loadAt source location).value = .error cause) ∨
      ∃ package kept, e = .indexRepeated package kept location := by
  unfold omission? at h
  cases hload : (loadAt source location).value with
  | error cause =>
    rw [hload] at h
    exact .inl ⟨cause, (Option.some.inj h).symm, rfl⟩
  | ok ix =>
    rw [hload] at h
    obtain ⟨kept, -, rfl⟩ := Option.map_eq_some_iff.mp h
    exact .inr ⟨ix.package, kept.location, rfl⟩

/-! Texts in memory are listed in ascending order, under the canonical paths where they lie. -/
section Listed

variable {m : Memory} {st : Store} (hm : m.Canonical)

theorem events_reloadAll (m : Memory) (st : Store) : (st.reloadAll m.source).events =
    (gather m.source .empty (m.list "" st.indexName)).events := List.append_nil _

/-- The log of a full load tells of each omission. -/
theorem mem_events_reloadAll_iff {e : Event} (he : e.isOmission = true) :
    e ∈ (st.reloadAll m.source).events ↔
      ∃ before location after, m.list "" st.indexName = before ++ location :: after ∧
        omission? m.source before location = some e := by
  have hmem : e ∈ (gather m.source .empty (m.list "" st.indexName)).events ↔
      e ∈ filterMapAfter (omission? m.source) (m.list "" st.indexName) := by
    rw [← (gather_account _ _).1, List.mem_filter, he, and_iff_left rfl]
  rw [events_reloadAll, hmem]
  exact mem_filterMapAfter

/-- Each listed location counts once, as an entry, a repetition or a skipped index. -/
theorem length_list_eq (m : Memory) (st : Store) : (m.list "" st.indexName).length =
    (st.reloadAll m.source).value.catalog.size +
      (st.reloadAll m.source).events.countP Event.isRepetition +
      (st.reloadAll m.source).events.countP Event.isSkip := by
  obtain ⟨hevents, hsize⟩ := gather_account m.source (m.list "" st.indexName)
  rw [Nat.add_assoc, ← Event.countP_isOmission, List.countP_eq_length_filter,
    events_reloadAll, hevents]
  exact hsize.symm

theorem find?_reloadAll_memory (m : Memory) (st : Store) (name : String) :
    (st.reloadAll m.source).value.catalog.find? name =
      (m.list "" st.indexName).findSome? (packageAt? m.source name) :=
  find?_reloadAll st m.source name

include hm

/-- An index that is found lies at a listed location, before all others of its package. -/
theorem lies_first_of_findSome? {before after : List String}
    (hlist : m.list "" st.indexName = before ++ after)
    (h : before.findSome? (packageAt? m.source name) = some ix) :
    ix.location ∈ before ∧
      (∀ location ∈ before, ∀ jx, indexAt? m.source location = some jx → jx.package = name →
        ix.location ≤ location) ∧
      ∀ location ∈ after, ix.location < location := by
  have hascending := hlist ▸ m.pairwise_list "" st.indexName
  obtain ⟨earlier, first, later, rfl, hfirst, hearlier⟩ := List.findSome?_eq_some_iff.mp h
  have hmem : first ∈ m.list "" st.indexName := by
    rw [hlist]
    simp
  obtain ⟨rfl, -⟩ := location_of_indexAt? (Memory.normalize_of_mem_list hm hmem)
    (packageAt?_eq_some_iff.mp hfirst).1
  obtain ⟨hbefore, -, hafter⟩ := List.pairwise_append.mp hascending
  refine ⟨by simp, fun location hl jx hat hpackage => ?_,
    fun location hl => hafter _ (by simp) location hl⟩
  rcases List.mem_append.mp hl with hl | hl
  · have hnone := hearlier location hl
    rw [packageAt?_eq_some_iff.mpr ⟨hat, hpackage⟩] at hnone
    cases hnone
  · rcases List.mem_cons.mp hl with rfl | hl
    · exact String.le_refl _
    · have hlater := (List.pairwise_append.mp hbefore).2.1
      exact Std.le_of_lt ((List.pairwise_cons.mp hlater).1 location hl)

/-- The log names the kept and the ignored location of a package. -/
theorem repeated_of_mem_events {package kept ignored : String}
    (h : .indexRepeated package kept ignored ∈ (st.reloadAll m.source).events) :
    (∃ ix, (st.reloadAll m.source).value.catalog.find? package = some ix ∧ ix.location = kept) ∧
      ignored ∈ m.list "" st.indexName ∧ kept < ignored ∧
        ∃ jx, indexAt? m.source ignored = some jx ∧ jx.package = package := by
  obtain ⟨before, location, after, hlist, homitted⟩ := (mem_events_reloadAll_iff rfl).mp h
  obtain ⟨rfl, hat, ix, hix, rfl⟩ := omission?_eq_repetition_iff.mp homitted
  have hentry : (st.reloadAll m.source).value.catalog.find? package = some ix := by
    rw [find?_reloadAll_memory, hlist, List.findSome?_append, hix, Option.some_or]
  have hlisted : location ∈ m.list "" st.indexName := by
    rw [hlist]
    simp
  exact ⟨⟨ix, hentry, rfl⟩, hlisted,
    (lies_first_of_findSome? hm hlist hix).2.2 location List.mem_cons_self, hat⟩

/-- Each listed location holds an entry of the catalog, unless the log says why not. -/
theorem explained_of_mem_list {location : String} (hl : location ∈ m.list "" st.indexName) :
    (∃ name ix, (st.reloadAll m.source).value.catalog.find? name = some ix ∧
        ix.location = location) ∨
      (∃ package kept,
        .indexRepeated package kept location ∈ (st.reloadAll m.source).events) ∨
      ∃ cause, (loadAt m.source location).value = .error cause ∧
        .indexSkipped cause ∈ (st.reloadAll m.source).events := by
  obtain ⟨before, after, hlist⟩ := List.append_of_mem hl
  cases homitted : omission? m.source before location with
  | none =>
    obtain ⟨ix, hat, hnew⟩ := omission?_eq_none_iff.mp homitted
    refine .inl ⟨ix.package, ix, ?_,
      (location_of_indexAt? (Memory.normalize_of_mem_list hm hl) hat).1⟩
    rw [find?_reloadAll_memory, hlist, List.findSome?_append, hnew, Option.none_or,
      List.findSome?_cons, packageAt?_eq_some_iff.mpr ⟨hat, rfl⟩]
  | some e =>
    rcases omission?_cases homitted with ⟨cause, rfl, hload⟩ | ⟨package, kept, rfl⟩
    · exact .inr (.inr ⟨cause, hload,
        (mem_events_reloadAll_iff rfl).mpr ⟨before, location, after, hlist, homitted⟩⟩)
    · exact .inr (.inl ⟨package, kept,
        (mem_events_reloadAll_iff rfl).mpr ⟨before, location, after, hlist, homitted⟩⟩)

end Listed

/-- How a full load of the listed locations selects the entries of the catalog, and accounts for all
other locations. -/
structure Accounts (source : Source) (locations : List String) (count : Nat) (catalog : Catalog)
    (events : List Event) : Prop where
  contains_iff : ∀ name, catalog.contains name = true ↔
    ∃ location ∈ locations, ∃ ix, indexAt? source location = some ix ∧ ix.package = name
  smallest : ∀ name ix, catalog.find? name = some ix →
    ix.location ∈ locations ∧ indexAt? source ix.location = some ix ∧ ix.package = name ∧
      ∀ location ∈ locations, ∀ jx, indexAt? source location = some jx → jx.package = name →
        ix.location ≤ location
  count_eq : count = catalog.size
  conserved : locations.length =
    catalog.size + events.countP Event.isRepetition + events.countP Event.isSkip
  repeated : ∀ package kept ignored, .indexRepeated package kept ignored ∈ events →
    (∃ ix, catalog.find? package = some ix ∧ ix.location = kept) ∧
      ignored ∈ locations ∧ kept < ignored ∧
        ∃ jx, indexAt? source ignored = some jx ∧ jx.package = package
  skipped : ∀ cause, .indexSkipped cause ∈ events →
    ∃ location ∈ locations, (loadAt source location).value = .error cause
  explained : ∀ location ∈ locations,
    (∃ name ix, catalog.find? name = some ix ∧ ix.location = location) ∨
      (∃ package kept, .indexRepeated package kept location ∈ events) ∨
      ∃ cause, (loadAt source location).value = .error cause ∧ .indexSkipped cause ∈ events

/-- A full load of texts in memory selects the index of each package at its smallest location and
accounts for all listed locations, and what was loaded before has no say. -/
theorem rescan_accounts {source : Source} (hsource : Memory.Backs source) (st : Store) :
    let locations := (source.list "" st.indexName).value
    let loaded := st.rescan source
    locations.Pairwise (· < ·) ∧
      Accounts source locations loaded.value.1 loaded.value.2.catalog loaded.events ∧
      ∀ earlier : Store, earlier.indexName = st.indexName → earlier.rescan source = loaded := by
  obtain ⟨files, rfl⟩ := hsource.exists_eq
  have hm := Memory.canonical_ofList files
  have hevents : (st.rescan (Memory.ofList files).source).events =
      (st.reloadAll (Memory.ofList files).source).events := List.append_nil _
  refine ⟨Memory.pairwise_list _ _ _, ?_, ?_⟩
  · rw [hevents]
    constructor
    case contains_iff =>
      intro name
      change (NameMap.find? _ name).isSome = true ↔ _
      rw [rescan, Logged.bind_value, Logged.pure_value, find?_reloadAll,
        List.findSome?_isSome_iff]
      refine exists_congr fun location => and_congr_right fun _ => ?_
      rw [Option.isSome_iff_exists]
      exact exists_congr fun ix => packageAt?_eq_some_iff
    case smallest =>
      intro name ix h
      obtain ⟨hlisted, hpackage, hat⟩ := location_of_find?_reloadAll hm h
      refine ⟨hlisted, hat, hpackage, ?_⟩
      have hfirst := (find?_reloadAll_memory _ st name).symm.trans h
      exact (lies_first_of_findSome? hm (List.append_nil _).symm hfirst).2.1
    case count_eq => rfl
    case conserved => exact length_list_eq _ st
    case repeated => exact fun package kept ignored => repeated_of_mem_events hm
    case skipped =>
      intro cause he
      obtain ⟨before, location, after, hlist, homitted⟩ :=
        (mem_events_reloadAll_iff rfl).mp he
      refine ⟨location, ?_, omission?_eq_skip_iff.mp homitted⟩
      change location ∈ (Memory.ofList files).list "" st.indexName
      rw [hlist]
      simp
    case explained => exact fun location => explained_of_mem_list hm
  · intro earlier hname
    rw [rescan, rescan, reloadAll, reloadAll, hname]

def lowerShelf : List (String × String) :=
  [(home "A", manifestOf "A" "First"), (home "B", manifestOf "B" "Only"),
    (home "C", manifestOf "C" "Hidden")]

/-- A text that does not load hides one that does, and one repeats a package of the lower texts. -/
def upperShelf : List (String × String) := [(home "C", "\x7b"), (home "D", manifestOf "A" "Copy")]

def shelves : Source :=
  Source.layered (Memory.ofList upperShelf).source (Memory.ofList lowerShelf).source

theorem shelves_accounts :
    Memory.Backs shelves ∧
      Accounts shelves [home "A", home "B", home "C", home "D"] 2
        (shelved.rescan shelves).value.2.catalog (shelved.rescan shelves).events ∧
      (shelved.rescan shelves).value.2.catalog.names = ["A", "B"] ∧
      (shelved.rescan shelves).events.map Event.line =
        ["WARN skipping help index",
          "WARN package has more than one help index package=A kept=A/help/hyperhelp.json " ++
            "ignored=D/help/hyperhelp.json"] := by
  have hbacks : Memory.Backs shelves := .layered upperShelf lowerShelf
  have hmerged : shelves = (Memory.ofList (lowerShelf ++ upperShelf)).source := by
    rw [shelves, Memory.layered_source, Memory.overlay_ofList]
  have hlist : (shelves.list "" shelved.indexName).value =
      [home "A", home "B", home "C", home "D"] := by
    rw [hmerged]
    decide +kernel
  have hcount : (shelved.rescan shelves).value.1 = 2 := by
    rw [hmerged]
    decide +kernel
  obtain ⟨-, haccounts, -⟩ := rescan_accounts hbacks shelved
  rw [hlist, hcount] at haccounts
  refine ⟨hbacks, haccounts, ?_⟩
  rw [hmerged]
  exact ⟨by decide +kernel, by decide +kernel⟩

end Store

end HelpAudit
