import HelpAudit.Proofs.NameMap
import HelpAudit.Source.Memory
import HelpAudit.Store

/-! What a reload does to the catalog: the package it reads goes, the one it finds comes, and an
index of the found name that was there before is lost. -/
namespace HelpAudit.Store

/-- The stores that loading leads to, from whatever the sources hold at each step. -/
inductive Reachable : Store → Prop where
  | new (indexName : String) : Reachable (new indexName)
  | reloadAll {st : Store} (source : Source) : Reachable st →
      Reachable (st.reloadAll source).value
  | reload {st st' : Store} {fresh : Index} (source : Source) (package : String) :
      Reachable st → (st.reload source package).value = .ok (fresh, st') → Reachable st'

theorem reachable_openAll (source : Source) (indexName : String) :
    Reachable (openAll source indexName).value :=
  (Reachable.new indexName).reloadAll source

variable {st st' : Store} {source : Source} {package : String} {fresh : Index}

/-- A reload that succeeds reads the loaded index's location again and puts what it finds there in
the place of the package. -/
theorem reload_cases (h : (st.reload source package).value = .ok (fresh, st')) :
    ∃ current, st.catalog.find? package = some current ∧
      (loadAt source current.location).value = .ok fresh ∧
      st' = { st with catalog := (st.catalog.erase package).insert fresh.package fresh } := by
  unfold reload at h
  cases hc : st.catalog.find? package with
  | none =>
    rw [hc] at h
    cases h
  | some current =>
    refine ⟨current, rfl, ?_⟩
    simp only [hc, Logged.bind_value] at h
    cases hl : (loadAt source current.location).value with
    | error e =>
      rw [hl] at h
      cases h
    | ok ix =>
      rw [hl] at h
      cases h
      exact ⟨rfl, rfl⟩

theorem find?_reload (h : (st.reload source package).value = .ok (fresh, st')) (name : String) :
    st'.catalog.find? name =
      if name = fresh.package then some fresh
      else if name = package then none
      else st.catalog.find? name := by
  obtain ⟨current, -, -, rfl⟩ := reload_cases h
  rw [NameMap.find?_insert, NameMap.find?_erase]

/-- A reload keeps the entries of all other packages just when the name it finds is the name it was
asked for, or is new, or is that of an equal index. All names but these two keep their entries in
any case, and the found name has the found index. -/
theorem reload_keeps_others_iff (h : (st.reload source package).value = .ok (fresh, st')) :
    ((∀ other ix, other ≠ package → st.catalog.find? other = some ix →
        st'.catalog.find? other = some ix) ↔
      fresh.package = package ∨ ∀ ix, st.catalog.find? fresh.package = some ix → ix = fresh) ∧
    st'.catalog.find? fresh.package = some fresh ∧
    ∀ other, other ≠ package → other ≠ fresh.package →
      st'.catalog.find? other = st.catalog.find? other := by
  have hfresh : st'.catalog.find? fresh.package = some fresh := by
    rw [find?_reload h, if_pos rfl]
  have hframe : ∀ other, other ≠ package → other ≠ fresh.package →
      st'.catalog.find? other = st.catalog.find? other := by
    intro other hp hf
    rw [find?_reload h, if_neg hf, if_neg hp]
  refine ⟨⟨fun hkeep => ?_, fun hcond other ix hp hix => ?_⟩, hfresh, hframe⟩
  · by_cases hp : fresh.package = package
    · exact .inl hp
    · refine .inr fun ix hix => ?_
      have hkept := hkeep fresh.package ix hp hix
      rw [hfresh] at hkept
      exact (Option.some.inj hkept).symm
  · by_cases hf : other = fresh.package
    · subst hf
      obtain heq | hsame := hcond
      · exact absurd heq hp
      · rw [hfresh, hsame ix hix]
    · rw [hframe other hp hf, hix]

/-- Two packages, of which the index text of the first names the package `first`. -/
def twoPackages (first : String) : Source :=
  Memory.source (Memory.ofList
    [("A/help/hyperhelp.json", "\x7b\"package\":\"" ++ first ++ "\"\x7d"),
      ("B/help/hyperhelp.json", "\x7b\"package\":\"B\"\x7d")])

def twoLoaded : Store := (openAll (twoPackages "A") "hyperhelp.json").value

/-- A package that comes back under a new name leaves the other alone. -/
theorem twoLoaded_reload_renamed : ∃ fresh st', fresh.package = "C" ∧
    (twoLoaded.reload (twoPackages "C") "A").value = .ok (fresh, st') ∧
    st'.catalog.find? "A" = none ∧
    ∀ other ix, other ≠ "A" → twoLoaded.catalog.find? other = some ix →
      st'.catalog.find? other = some ix := by
  have hname : (twoLoaded.reload (twoPackages "C") "A").value.toOption.map (·.1.package) =
      some "C" := by decide +kernel
  have hnew : (twoLoaded.catalog.find? "C").isNone = true := by decide +kernel
  cases h : (twoLoaded.reload (twoPackages "C") "A").value with
  | error e =>
    rw [h] at hname
    cases hname
  | ok r =>
    obtain ⟨fresh, st'⟩ := r
    rw [h] at hname
    have hC : fresh.package = "C" := Option.some.inj hname
    have hcond : ∀ ix, twoLoaded.catalog.find? fresh.package = some ix → ix = fresh := by
      intro ix hix
      rw [hC, Option.isNone_iff_eq_none.mp hnew] at hix
      cases hix
    refine ⟨fresh, st', hC, rfl, ?_, (reload_keeps_others_iff h).1.mpr (.inr hcond)⟩
    rw [find?_reload h, hC]
    rfl

/-- A package that comes back under the name of another takes that one's place. -/
theorem not_reload_keeps_others : ¬ ∀ (st : Store) (source : Source) (package : String)
    (fresh : Index) (st' : Store), Reachable st →
    (st.reload source package).value = .ok (fresh, st') →
    ∀ other ix, other ≠ package → st.catalog.find? other = some ix →
      st'.catalog.find? other = some ix := by
  intro hkeep
  have hbefore : (twoLoaded.catalog.find? "B").map (·.location) = some "B/help/hyperhelp.json" := by
    decide +kernel
  have hafter : ((twoLoaded.reload (twoPackages "B") "A").value.toOption.bind
      (·.2.catalog.find? "B")).map (·.location) = some "A/help/hyperhelp.json" := by
    decide +kernel
  obtain ⟨ix, hix, hloc⟩ := Option.map_eq_some_iff.mp hbefore
  cases h : (twoLoaded.reload (twoPackages "B") "A").value with
  | error e =>
    rw [h] at hafter
    cases hafter
  | ok r =>
    obtain ⟨fresh, st'⟩ := r
    have hB := hkeep twoLoaded _ "A" fresh st' (reachable_openAll _ _) h "B" ix (by decide) hix
    rw [h] at hafter
    have hsame : (st'.catalog.find? "B").map (·.location) = some "A/help/hyperhelp.json" := hafter
    rw [hB, Option.map_some, hloc] at hsame
    exact absurd (Option.some.inj hsame) (by decide)

end HelpAudit.Store
