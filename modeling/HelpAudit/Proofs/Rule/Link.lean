import HelpAudit.Rule.Link
import HelpAudit.Rule.Orphan

/-! Links without findings lead to files that are there, and files that are no orphans have a link
from another file. -/
namespace HelpAudit

namespace Link

open Markup (LinkBody)

/-- The link has a topic, which stands in the package that its qualifier names, and the file of the
topic is there. -/
def Leads (cx : Context) (body : String) : Prop :=
  ∃ topic ix t, (LinkBody.parse body).topic = some topic ∧
    cx.indexOf? (cx.resolve (LinkBody.parse body).package) = some ix ∧
    ix.lookup topic = some t ∧ cx.source.holds (ix.resource t.file) = true

variable {cx : Context}

theorem holds_of_topicFault?_eq_none {ref : PackageRef} {ix : Index} {topic : String}
    (h : topicFault? cx ref ix topic = none) :
    ∃ t, ix.lookup topic = some t ∧ cx.source.holds (ix.resource t.file) = true := by
  unfold topicFault? at h
  split at h
  · simp at h
  · next t ht =>
    split at h
    · next hh => exact ⟨t, ht, hh⟩
    · simp at h

theorem leads_of_fault?_eq_none {body : String} (h : fault? cx body = none) : Leads cx body := by
  unfold fault? at h
  dsimp only at h
  split at h
  · simp at h
  · next topic htopic =>
    split at h
    · simp at h
    · split at h
      · simp at h
      · next ix hix =>
        obtain ⟨t, ht, hh⟩ := holds_of_topicFault?_eq_none h
        exact ⟨topic, ix, t, htopic, hix, ht, hh⟩

theorem leads_of_check_eq_nil {d : Document} (h : check cx d = []) {s : Markup.Span}
    (hs : s ∈ d.links) : Leads cx s.body := by
  have hnone := List.filterMap_eq_nil_iff.mp h s hs
  exact leads_of_fault?_eq_none (Option.map_eq_none_iff.mp hnone)

end Link

namespace Orphan

open Markup (LinkBody)

/-- The link has a topic of the present package, which lives in the file. -/
def LeadsTo (cx : Context) (body file : String) : Prop :=
  ∃ topic t, (LinkBody.parse body).topic = some topic ∧
    (cx.resolve (LinkBody.parse body).package = .own ∨
      ∃ name, cx.resolve (LinkBody.parse body).package = .file name) ∧
    cx.index.lookup topic = some t ∧ t.file = file

variable {cx : Context}

/-- A link counts for the file that it leads to, unless it stands there. -/
theorem linkedFile?_eq_some_iff {file body target : String} :
    linkedFile? cx file body = some target ↔ target ≠ file ∧ LeadsTo cx body target := by
  have hlookup (hown : cx.resolve (LinkBody.parse body).package = .own ∨
      ∃ name, cx.resolve (LinkBody.parse body).package = .file name) :
      ((LinkBody.parse body).topic.bind fun topic => (cx.index.lookup topic).bind
        fun t => if t.file = file then none else some t.file) = some target ↔
          target ≠ file ∧ LeadsTo cx body target := by
    simp only [LeadsTo, hown, true_and, Option.bind_eq_some_iff]
    grind
  unfold linkedFile?
  dsimp only
  cases hr : cx.resolve (LinkBody.parse body).package with
  | own => simpa using hlookup (.inl hr)
  | file name => simpa using hlookup (.inr ⟨name, hr⟩)
  | foreign ix => simp [LeadsTo, hr]
  | unknown name => simp [LeadsTo, hr]

theorem mem_linkedFiles_iff {d : Document} {file : String} : file ∈ linkedFiles cx d ↔
    file ≠ d.file ∧ ∃ s ∈ d.links, LeadsTo cx s.body file := by
  simp only [linkedFiles, List.mem_filterMap, linkedFile?_eq_some_iff]
  constructor
  · rintro ⟨s, hs, hne, hlead⟩
    exact ⟨hne, s, hs, hlead⟩
  · rintro ⟨hne, s, hs, hlead⟩
    exact ⟨s, hs, hne, hlead⟩

theorem mem_linkedFiles {d : Document} {file : String} (h : file ∈ linkedFiles cx d) :
    file ≠ d.file ∧ ∃ s ∈ d.links, LeadsTo cx s.body file :=
  mem_linkedFiles_iff.mp h

theorem mem_of_check_eq_nil {linked : List String} (h : check cx linked = []) {f : HelpFile}
    (hf : f ∈ cx.index.files) : f.path ∈ linked := by
  have hall := List.filter_eq_nil_iff.mp (List.map_eq_nil_iff.mp h) f hf
  simpa using hall

end Orphan

end HelpAudit
