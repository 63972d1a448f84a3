import HelpAudit.Proofs.Index.Load
import HelpAudit.Proofs.Resource

/-! What a loaded index says of itself: its package has a name, its paths are canonical, and it lies
where it was loaded. -/
namespace HelpAudit

/-- Declarations change neither the package nor the documentation folder. -/
theorem Draft.identity_declareAll (ds : List Declaration) (d : Draft) :
    (d.declareAll ds).package = d.package ∧ (d.declareAll ds).docRoot = d.docRoot := by
  induction ds generalizing d with
  | nil => exact ⟨rfl, rfl⟩
  | cons decl ds ih =>
    obtain ⟨hpackage, hroot⟩ := ih (d.declare decl)
    have hstep : (d.declare decl).package = d.package ∧ (d.declare decl).docRoot = d.docRoot := by
      cases decl with
      | topic t =>
        obtain ⟨topics, events, h⟩ := d.exists_addTopic_eq t
        rw [declare, h]
        exact ⟨rfl, rfl⟩
      | _ => exact ⟨rfl, rfl⟩
    exact ⟨hpackage.trans hstep.1, hroot.trans hstep.2⟩

/-- A location that is declared is kept in canonical form. -/
theorem Draft.isCanonical_location {d : Draft}
    (h : ∀ l, d.location = some l → Resource.IsCanonical l) (ds : List Declaration) :
    ∀ l, (d.declareAll ds).location = some l → Resource.IsCanonical l := by
  induction ds generalizing d with
  | nil => exact h
  | cons decl ds ih =>
    apply ih (d := d.declare decl)
    cases decl with
    | location path =>
      intro l hl
      cases hl
      exact Resource.isCanonical_normalize path
    | topic t =>
      obtain ⟨topics, events, htopic⟩ := d.exists_addTopic_eq t
      rw [declare, htopic]
      exact h
    | _ => exact h

namespace Index

theorem IsBuilt.docRoot_canonical {ix : Index} (h : ix.IsBuilt) :
    Resource.IsCanonical ix.docRoot := by
  obtain ⟨package, docRoot, ds, rfl⟩ := h
  have hroot := (Draft.identity_declareAll ds (.start package docRoot)).2
  change Resource.IsCanonical ((Draft.start package docRoot).declareAll ds).docRoot
  rw [hroot]
  exact Resource.isCanonical_normalize docRoot

theorem IsBuilt.location_canonical {ix : Index} (h : ix.IsBuilt) :
    Resource.IsCanonical ix.location := by
  obtain ⟨package, docRoot, ds, rfl⟩ := h
  have hstart : ∀ l, (Draft.start package docRoot).location = some l → Resource.IsCanonical l :=
    fun l hl => nomatch hl
  have hlocation := Draft.isCanonical_location hstart ds
  change Resource.IsCanonical (((Draft.start package docRoot).declareAll ds).location.getD _)
  cases hd : ((Draft.start package docRoot).declareAll ds).location with
  | none => exact Resource.isCanonical_normalize _
  | some l => exact hlocation l hd

/-- The index of a package with a name, which lies at the location. -/
structure LiesAt (location : String) (ix : Index) : Prop where
  package_not_blank : Text.allBlank ix.package.toList = false
  docRoot_canonical : Resource.IsCanonical ix.docRoot
  location_eq : ix.location = Resource.normalize location

theorem liesAt_of_load {text location : String} {ix : Index}
    (h : (load text location).value = .ok ix) : ix.LiesAt location := by
  obtain ⟨m, d, hm, hd, hix, -⟩ := load_cases h
  obtain ⟨hpackage, hroot⟩ := Draft.identity_declareAll
    (.description m.description :: .location (Resource.normalize location) ::
      (declarations m.files).1)
    (Draft.start m.package (documentRoot (Resource.normalize location) m.docRoot))
  change (m.draft (Resource.normalize location)).package = m.package at hpackage
  have hlocation := m.location_draft (Resource.normalize location)
  rw [addEntries_eq none [] 0] at hix
  rw [hix]
  constructor
  case package_not_blank =>
    change Text.allBlank d.package.toList = false
    rw [hd, hpackage, ← Bool.not_eq_true]
    intro hblank
    rw [load, hm] at h
    dsimp only at h
    rw [if_pos hblank] at h
    cases h
  case docRoot_canonical =>
    change Resource.IsCanonical d.docRoot
    rw [hd]
    exact hroot ▸ Resource.isCanonical_normalize _
  case location_eq =>
    change d.location.getD _ = _
    rw [hd, hlocation, Option.getD_some, Resource.normalize_normalize]

end Index

end HelpAudit
