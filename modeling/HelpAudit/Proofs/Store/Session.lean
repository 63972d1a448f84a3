import HelpAudit.Proofs.Sequence
import HelpAudit.Proofs.Store.Gather
import HelpAudit.Proofs.Store.Reload

/-!
Stores over whole sessions. Texts in memory change and the store loads them again, all of them or
one package. Every entry of the catalog stands under its own name, comes from a text that was read
where the index lies, and shares this place with no other entry.
-/
namespace HelpAudit

/-- What happens to a store and to the texts that it loads. -/
inductive Action where
  | put (path text : String)
  | reloadAll
  | reload (package : String)

/-- A store over texts in memory. -/
structure Session where
  memory : Memory
  store : Store

namespace Session

/-- A session with a store that is new, or opened on the texts. -/
def start (opens : Bool) (files : List (String × String)) (indexName : String) : Session :=
  let memory := Memory.ofList files
  ⟨memory, if opens then (Store.openAll memory.source indexName).value else .new indexName⟩

def step (s : Session) : Action → Session
  | .put path text => { s with memory := s.memory.put path text }
  | .reloadAll => { s with store := (s.store.reloadAll s.memory.source).value }
  | .reload package =>
    match (s.store.reload s.memory.source package).value with
    | .ok (_, store) => { s with store := store }
    | .error _ => s

def run (s : Session) (actions : List Action) : Session := actions.foldl step s

/-- The locations that an action reads. -/
def reads (s : Session) : Action → List String
  | .put _ _ => []
  | .reloadAll => s.memory.list "" s.store.indexName
  | .reload package => ((s.store.catalog.find? package).map (·.location)).toList

/-- An action would read the text at the location. -/
def Reads (s : Session) (action : Action) (location text : String) : Prop :=
  location ∈ s.reads action ∧ NameMap.find? s.memory location = some text

/-- One of the actions has read the text at the location. -/
def HasRead (s : Session) (actions : List Action) (location text : String) : Prop :=
  ExistsAfter (fun before action => (s.run before).Reads action location text) actions

/-- All that a new store has gone through; opening is a full load. -/
def history (opens : Bool) (actions : List Action) : List Action :=
  if opens then .reloadAll :: actions else actions

theorem run_start (opens : Bool) (files : List (String × String)) (indexName : String)
    (actions : List Action) : (start opens files indexName).run actions =
      (start false files indexName).run (history opens actions) := by
  cases opens with
  | true => rfl
  | false => rfl

theorem run_concat (s : Session) (actions : List Action) (action : Action) :
    s.run (actions ++ [action]) = (s.run actions).step action := by
  rw [run, List.foldl_append]
  rfl

variable {s : Session} {package : String}

theorem step_reload_of_ok {fresh : Index} {st : Store}
    (h : (s.store.reload s.memory.source package).value = .ok (fresh, st)) :
    s.step (.reload package) = { s with store := st } := by
  rw [step, h]

theorem step_reload_of_error {e : Index.LoadError}
    (h : (s.store.reload s.memory.source package).value = .error e) :
    s.step (.reload package) = s := by
  rw [step, h]

/-- Why a reload fails: the package is not loaded, its index has no text, or the text fails. -/
def Fails (s : Session) (package : String) (e : Index.LoadError) : Prop :=
  match s.store.catalog.find? package with
  | none => e = .unknownPackage package
  | some current =>
    match s.memory.source.content current.location with
    | none => e = .unreadable current.location
    | some text => (Index.load text current.location).value = .error e

theorem reload_eq_error_iff {e : Index.LoadError} :
    (s.store.reload s.memory.source package).value = .error e ↔ s.Fails package e := by
  unfold Fails Store.reload
  cases s.store.catalog.find? package with
  | none => exact ⟨fun h => (Except.error.inj h).symm, fun h => congrArg Except.error h.symm⟩
  | some current =>
    simp only [Logged.bind_value, Store.loadAt]
    cases s.memory.source.content current.location with
    | none => exact ⟨fun h => (Except.error.inj h).symm, fun h => congrArg Except.error h.symm⟩
    | some text =>
      dsimp only
      cases (Index.load text current.location).value with
      | error cause => simp
      | ok fresh => exact iff_of_false (fun h => by cases h) (fun h => by cases h)

theorem canonical_step (h : s.memory.Canonical) (action : Action) :
    (s.step action).memory.Canonical := by
  cases action with
  | put path text => exact Memory.canonical_put h path text
  | reloadAll => exact h
  | reload package =>
    cases hr : (s.store.reload s.memory.source package).value with
    | error e =>
      rw [step_reload_of_error hr]
      exact h
    | ok r =>
      rw [step_reload_of_ok hr]
      exact h

end Session

/-- The entries of a catalog that was loaded from texts that were read. -/
structure Catalog.Grounded (catalog : Catalog) (WasRead : (location text : String) → Prop) :
    Prop where
  /-- An index stands under the name of its package, which is not blank. -/
  named : ∀ name ix, catalog.find? name = some ix →
    ix.package = name ∧ Text.allBlank name.toList = false
  /-- It is what a text loads as that was read where the index lies. -/
  loaded : ∀ name ix, catalog.find? name = some ix → ∃ text, WasRead ix.location text ∧
    (Index.load text ix.location).value = .ok ix
  canonical : ∀ name ix, catalog.find? name = some ix →
    Resource.IsCanonical ix.docRoot ∧ Resource.IsCanonical ix.location
  /-- No two packages have their index in one place. -/
  apart : ∀ name other ix jx, catalog.find? name = some ix → catalog.find? other = some jx →
    ix.location = jx.location → name = other

namespace Catalog

variable {catalog : Catalog} {WasRead : String → String → Prop}

/-- What a load guarantees of each index need not be shown again. -/
theorem Grounded.of_loaded
    (named : ∀ name ix, catalog.find? name = some ix → ix.package = name)
    (loaded : ∀ name ix, catalog.find? name = some ix → ∃ text, WasRead ix.location text ∧
      (Index.load text ix.location).value = .ok ix)
    (apart : ∀ name other ix jx, catalog.find? name = some ix → catalog.find? other = some jx →
      ix.location = jx.location → name = other) : catalog.Grounded WasRead where
  named name ix h := by
    obtain ⟨text, -, hload⟩ := loaded name ix h
    have hpackage := named name ix h
    exact ⟨hpackage, hpackage ▸ (Index.liesAt_of_load hload).package_not_blank⟩
  loaded := loaded
  canonical name ix h := by
    obtain ⟨text, -, hload⟩ := loaded name ix h
    have hlies := Index.liesAt_of_load hload
    exact ⟨hlies.docRoot_canonical, hlies.location_eq ▸ Resource.isCanonical_normalize _⟩
  apart := apart

theorem Grounded.mono {WasRead' : String → String → Prop} (h : catalog.Grounded WasRead)
    (hread : ∀ location text, WasRead location text → WasRead' location text) :
    catalog.Grounded WasRead' where
  named := h.named
  loaded name ix hix := by
    obtain ⟨text, ht, hload⟩ := h.loaded name ix hix
    exact ⟨text, hread _ _ ht, hload⟩
  canonical := h.canonical
  apart := h.apart

theorem Grounded.normalize_location (h : catalog.Grounded WasRead) {name : String} {ix : Index}
    (hix : catalog.find? name = some ix) : Resource.normalize ix.location = ix.location := by
  obtain ⟨text, -, hload⟩ := h.loaded name ix hix
  exact (Index.liesAt_of_load hload).location_eq.symm

end Catalog

namespace Session

variable {s : Session} {WasRead : String → String → Prop}

/-- A full load takes every entry from a location that it reads. -/
theorem grounded_reloadAll (hm : s.memory.Canonical) :
    (s.step .reloadAll).store.catalog.Grounded (s.Reads .reloadAll) := by
  apply Catalog.Grounded.of_loaded
  case named =>
    intro name ix hix
    exact (Store.location_of_find?_reloadAll hm hix).2.1
  case loaded =>
    intro name ix hix
    obtain ⟨hl, -, hat⟩ := Store.location_of_find?_reloadAll hm hix
    obtain ⟨-, text, ht, hload⟩ :=
      Store.location_of_indexAt? (Memory.normalize_of_mem_list hm hl) hat
    exact ⟨text, ⟨hl, ht⟩, hload⟩
  case apart =>
    intro name other ix jx hix hjx h
    obtain ⟨-, rfl, hat⟩ := Store.location_of_find?_reloadAll hm hix
    obtain ⟨-, rfl, hat'⟩ := Store.location_of_find?_reloadAll hm hjx
    rw [h, hat'] at hat
    rw [Option.some.inj hat]

/-- A reload puts an index at the place of the one it takes away, so places stay apart even when
the name changes. -/
theorem grounded_reload (h : s.store.catalog.Grounded WasRead) {package : String} {fresh : Index}
    {st : Store} (hr : (s.store.reload s.memory.source package).value = .ok (fresh, st)) :
    st.catalog.Grounded fun location text =>
      WasRead location text ∨ s.Reads (.reload package) location text := by
  obtain ⟨current, hcurrent, hfresh, -⟩ := Store.reload_cases hr
  have hnormal := h.normalize_location hcurrent
  obtain ⟨hplace, text, ht, hload⟩ :=
    Store.location_of_indexAt? hnormal (Store.indexAt?_eq_some_iff_loadAt.mpr hfresh)
  have hreads : s.Reads (.reload package) current.location text := by
    refine ⟨?_, ht⟩
    rw [reads, hcurrent]
    exact List.mem_singleton.mpr rfl
  have hentry : ∀ name ix, st.catalog.find? name = some ix →
      name = fresh.package ∧ ix = fresh ∨
        name ≠ package ∧ s.store.catalog.find? name = some ix := by
    intro name ix hix
    rw [Store.find?_reload hr] at hix
    split at hix
    · next heq => exact .inl ⟨heq, (Option.some.inj hix).symm⟩
    · split at hix
      · cases hix
      · next hne => exact .inr ⟨hne, hix⟩
  have hother : ∀ name ix, name ≠ package → s.store.catalog.find? name = some ix →
      ix.location ≠ fresh.location := by
    intro name ix hne hix heq
    exact hne (h.apart name package ix current hix hcurrent (heq.trans hplace))
  apply Catalog.Grounded.of_loaded
  case named =>
    intro name ix hix
    rcases hentry name ix hix with ⟨rfl, rfl⟩ | ⟨-, hix⟩
    · rfl
    · exact (h.named name ix hix).1
  case loaded =>
    intro name ix hix
    rcases hentry name ix hix with ⟨rfl, rfl⟩ | ⟨-, hix⟩
    · rw [hplace]
      exact ⟨text, .inr hreads, hload⟩
    · obtain ⟨old, hold, hload⟩ := h.loaded name ix hix
      exact ⟨old, .inl hold, hload⟩
  case apart =>
    intro name other ix jx hix hjx heq
    rcases hentry name ix hix with ⟨rfl, rfl⟩ | ⟨hne, hix⟩
    · rcases hentry other jx hjx with ⟨rfl, rfl⟩ | ⟨hne', hjx⟩
      · rfl
      · exact absurd heq.symm (hother other jx hne' hjx)
    · rcases hentry other jx hjx with ⟨rfl, rfl⟩ | ⟨hne', hjx⟩
      · exact absurd heq (hother name ix hne hix)
      · exact h.apart name other ix jx hix hjx heq

theorem grounded_step (hm : s.memory.Canonical) (h : s.store.catalog.Grounded WasRead)
    (action : Action) : (s.step action).store.catalog.Grounded fun location text =>
      WasRead location text ∨ s.Reads action location text := by
  cases action with
  | put path text => exact h.mono fun _ _ => .inl
  | reloadAll => exact (grounded_reloadAll hm).mono fun _ _ => .inr
  | reload package =>
    cases hr : (s.store.reload s.memory.source package).value with
    | error e =>
      rw [step_reload_of_error hr]
      exact h.mono fun _ _ => .inl
    | ok r =>
      rw [step_reload_of_ok hr]
      exact grounded_reload h hr

theorem grounded_run_new (files : List (String × String)) (indexName : String)
    (actions : List Action) :
    ((start false files indexName).run actions).memory.Canonical ∧
      ((start false files indexName).run actions).store.catalog.Grounded
        ((start false files indexName).HasRead actions) := by
  induction actions using List.reverseRecOn with
  | nil =>
    refine ⟨Memory.canonical_ofList files, .of_loaded ?_ ?_ ?_⟩
    · intro name ix h
      cases h
    · intro name ix h
      cases h
    · intro name other ix jx h
      cases h
  | append_singleton actions action ih =>
    obtain ⟨hm, h⟩ := ih
    rw [run_concat]
    have hstep := grounded_step hm h action
    exact ⟨canonical_step hm action, hstep.mono fun _ _ hread => existsAfter_concat.mpr hread⟩

/-- In every session, from a new or an opened store, the entries of the catalog are grounded in
what was read. A reload fails for the causes given, and one that fails changes nothing. -/
theorem grounded_run (opens : Bool) (files : List (String × String)) (indexName : String)
    (actions : List Action) :
    let s := (start opens files indexName).run actions
    s.store.catalog.Grounded
        ((start false files indexName).HasRead (history opens actions)) ∧
      ∀ package e, ((s.store.reload s.memory.source package).value = .error e ↔
          s.Fails package e) ∧
        (s.Fails package e → (s.step (.reload package)).store.catalog = s.store.catalog) := by
  intro s
  refine ⟨?_, fun package e => ⟨reload_eq_error_iff, fun hfails => ?_⟩⟩
  · have hs : s = (start false files indexName).run (history opens actions) :=
      run_start opens files indexName actions
    rw [hs]
    exact (grounded_run_new files indexName (history opens actions)).2
  · rw [step_reload_of_error (reload_eq_error_iff.mpr hfails)]

def twoTexts : List (String × String) :=
  [("A/help/hyperhelp.json", "\x7b\"package\":\"A\"\x7d"),
    ("B/help/hyperhelp.json", "\x7b\"package\":\"B\"\x7d")]

/-- The first package comes back under a new name, and the text of the other breaks. -/
def renameAndBreak : List Action :=
  [.put "A//help/hyperhelp.json" "\x7b\"package\":\"C\"\x7d", .reload "A",
    .put "B/help/hyperhelp.json" "\x7b", .reload "B"]

def renamed : Session := (start true twoTexts "hyperhelp.json").run renameAndBreak

theorem renamed_grounded :
    renamed.store.catalog.entries.map (fun e => (e.1, e.2.location)) =
        [("B", "B/help/hyperhelp.json"), ("C", "A/help/hyperhelp.json")] ∧
      renamed.store.catalog.Grounded
        ((start false twoTexts "hyperhelp.json").HasRead (history true renameAndBreak)) ∧
      ∃ e, renamed.Fails "B" e ∧
        (renamed.step (.reload "B")).store.catalog = renamed.store.catalog := by
  have hentries : renamed.store.catalog.entries.map (fun e => (e.1, e.2.location)) =
      [("B", "B/help/hyperhelp.json"), ("C", "A/help/hyperhelp.json")] := by decide +kernel
  have hnone : (renamed.store.reload renamed.memory.source "B").value.toOption.isNone = true := by
    decide +kernel
  obtain ⟨hgrounded, hfails⟩ := grounded_run true twoTexts "hyperhelp.json" renameAndBreak
  refine ⟨hentries, hgrounded, ?_⟩
  cases h : (renamed.store.reload renamed.memory.source "B").value with
  | error e =>
    have he : renamed.Fails "B" e := (hfails "B" e).1.mp h
    exact ⟨e, he, (hfails "B" e).2 he⟩
  | ok r =>
    rw [h] at hnone
    cases hnone

end Session

end HelpAudit
