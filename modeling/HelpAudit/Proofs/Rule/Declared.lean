import HelpAudit.Proofs.Index.Reached
import HelpAudit.Proofs.NameMap
import HelpAudit.Proofs.Resource
import HelpAudit.Rule.ContentsCoverage
import HelpAudit.Rule.MissingSource
import HelpAudit.Rule.Title

/-! Declared files that no rule complains of: they are among the listed resources, have a header
with their title and can be reached from the table of contents. -/
namespace HelpAudit

variable {cx : Context}

namespace MissingSource

theorem stripRoot?_eq_some_iff {docRoot path file : String} :
    stripRoot? docRoot path = some file ↔ path = docRoot ++ "/" ++ file :=
  Resource.isPrefixOf?_slash_eq_some_iff

/-- A help file is on disk when the resource below the documentation folder is listed. -/
theorem mem_onDisk {file : String} : file ∈ onDisk cx ↔
    cx.index.docRoot ++ "/" ++ file ∈ (cx.source.list cx.index.docRoot helpFileGlob).value := by
  unfold onDisk
  rw [NameMap.mem_names_ofList, List.map_map]
  simp [stripRoot?_eq_some_iff]

theorem mem_onDisk_of_check_eq_nil (h : check cx = []) {f : HelpFile} (hf : f ∈ cx.index.files) :
    f.path ∈ onDisk cx := by
  have hr := List.map_eq_nil_iff.mp (List.append_eq_nil_iff.mp h).2
  simpa using List.filter_eq_nil_iff.mp hr f hf

end MissingSource

namespace Title

theorem exists_header_of_check_eq_nil {d : Document} (h : check cx d = []) {title : String}
    (ht : cx.index.title? d.file = some title) :
    ∃ header, Header.parse? d.firstLine = some header ∧ header.title = title := by
  have hf : fault? cx.index d = none := by simpa [check] using h
  unfold fault? at hf
  split at hf
  · simp at hf
  · next header hh =>
    rw [ht] at hf
    dsimp only at hf
    split at hf
    · next heq => exact ⟨header, hh, heq.symm⟩
    · simp at hf

end Title

namespace ContentsCoverage

theorem mem_reachedFiles_of_check_eq_nil (h : check cx = []) {f : HelpFile}
    (hf : f ∈ cx.index.files) : f.path ∈ cx.index.contents.reachedFiles := by
  simpa using List.filter_eq_nil_iff.mp (List.map_eq_nil_iff.mp h) f hf

end ContentsCoverage

end HelpAudit
