import HelpAudit.Proofs.Index.Growth
import HelpAudit.Rule.ContentsCoverage
import HelpAudit.Source.Memory

/-! What the rule on the table of contents finds in an index that declarations lead to. -/
namespace HelpAudit

namespace Contents

/-- A root leads to a node with the file. -/
def Shows (c : Contents) (file : String) : Prop :=
  ∃ id node, Reaches c id ∧ c.nodes[id]? = some node ∧ node.file = file

instance (c : Contents) (file : String) : Decidable (c.Shows file) :=
  decidable_of_iff (file ∈ c.reachedFiles) mem_reachedFiles_iff

/-- The files of the nodes, whether or not a root leads to them. -/
def files (c : Contents) : List String := c.nodes.toList.map (·.file)

theorem Shows.mem_files {c : Contents} {file : String} (h : c.Shows file) : file ∈ c.files := by
  obtain ⟨id, node, -, hnode, rfl⟩ := h
  rw [← Array.getElem?_toList] at hnode
  exact List.mem_map_of_mem (List.mem_of_getElem? hnode)

theorem shows_iff_mem_files {c : Contents} (h : ∀ id < c.nodes.size, Reaches c id)
    {file : String} : c.Shows file ↔ file ∈ c.files := by
  refine ⟨Shows.mem_files, fun hf => ?_⟩
  obtain ⟨node, hnode, rfl⟩ := List.mem_map.mp hf
  obtain ⟨id, hid⟩ := List.mem_iff_getElem?.mp hnode
  rw [Array.getElem?_toList] at hid
  exact ⟨id, node, h id (Array.getElem?_eq_some_iff.mp hid).1, hid, rfl⟩

end Contents

namespace ContentsCoverage

open Contents Declaration

/-- One warning for each path. -/
def warnings (cx : Context) (paths : List String) : List Diagnostic :=
  paths.map fun path => cx.indexIssue .warning ruleName (message path)

theorem check_eq (cx : Context) : check cx =
    warnings cx ((cx.index.files.map (·.path)).filter (¬cx.index.contents.Shows ·)) := by
  have hshows : ∀ file, (!cx.index.contents.reachedFiles.contains file) =
      decide ¬cx.index.contents.Shows file := by
    intro file
    have hiff : file ∈ cx.index.contents.reachedFiles ↔ cx.index.contents.Shows file :=
      mem_reachedFiles_iff
    rw [List.contains_eq_mem, decide_not, decide_eq_decide.mpr hiff]
  rw [check, warnings, List.filter_map, List.map_map]
  simp only [hshows]
  rfl

/-- Entries that are declared below themselves are the only ones that can be out of reach. The rule
warns of the declared files that no root leads to; these are the files without a node when the
roots lead to every node. -/
theorem check_ofDeclarations (package docRoot : String) {ds : List Declaration}
    (hbare : ∀ d ∈ ds, d.IsBare) (catalog : Catalog) (source : Source) :
    let ix := Index.ofDeclarations package docRoot ds
    let cx : Context := ⟨ix, catalog, source⟩
    (∀ id ∈ ix.contents.roots, id < ix.contents.nodes.size) ∧
    (∀ p, ∀ id ∈ ix.contents.childrenOf p, id < ix.contents.nodes.size) ∧
    ((∀ id < ix.contents.nodes.size, Reaches ix.contents id) ↔
      ∀ id, IsOwnParent ds id → ∃ p, p ≠ id ∧ Links ds p id ∧ Reaches ix.contents p) ∧
    check cx = warnings cx ((paths ds).filter (¬ix.contents.Shows ·)) ∧
    ((∀ id < ix.contents.nodes.size, Reaches ix.contents id) →
      check cx = warnings cx ((paths ds).filter (· ∉ ix.contents.files))) := by
  intro ix cx
  have h : Describes ds ix.contents := describes_ofDeclarations hbare
  have hcheck : check cx = warnings cx ((paths ds).filter (¬ix.contents.Shows ·)) := by
    rw [check_eq, paths_files_ofDeclarations]
  refine ⟨fun _ => h.roots_lt, fun _ _ => h.childrenOf_lt, h.reaches_all_iff, hcheck, ?_⟩
  intro hall
  have hshows : ∀ file ∈ paths ds,
      decide (¬ix.contents.Shows file) = decide (file ∉ ix.contents.files) :=
    fun file _ => decide_eq_decide.mpr (not_congr (shows_iff_mem_files hall))
  rw [hcheck, List.filter_congr hshows]

/-- The first entry is below itself, and the second, a root, is linked with it both ways. -/
def adopted : List Declaration :=
  [.file "a.txt" "A", .file "b.txt" "B", .file "c.txt" "C",
    .entry (some 0) ⟨"a.txt", "a.txt", none, []⟩, .entry (some 5) ⟨"b.txt", "b.txt", none, []⟩,
    .edge 1 0, .edge 0 1]

theorem adopted_check :
    let ix := Index.ofDeclarations "Docs" "Docs/help" adopted
    let cx : Context := ⟨ix, .empty, (Memory.ofList []).source⟩
    (∀ d ∈ adopted, d.IsBare) ∧ (∀ id < ix.contents.nodes.size, Reaches ix.contents id) ∧
      check cx = warnings cx ["c.txt"] := by
  intro ix cx
  have hbare : ∀ d ∈ adopted, d.IsBare := by simp [adopted, IsBare]
  have hreached : ∀ id < ix.contents.nodes.size, id ∈ ix.contents.reached := by decide
  have hall : ∀ id < ix.contents.nodes.size, Reaches ix.contents id :=
    fun id hlt => mem_reached_iff.mp (hreached id hlt)
  obtain ⟨-, -, -, -, hcheck⟩ := check_ofDeclarations "Docs" "Docs/help" hbare cx.catalog cx.source
  have hmissing : (paths adopted).filter (· ∉ ix.contents.files) = ["c.txt"] := by decide
  exact ⟨hbare, hall, (hcheck hall).trans (congrArg (warnings cx) hmissing)⟩

/-- An entry below itself is out of reach, and its file is warned of. -/
theorem not_check_ofDeclarations :
    ¬∀ (package docRoot : String) (ds : List Declaration), (∀ d ∈ ds, d.IsBare) →
      ∀ (catalog : Catalog) (source : Source),
        let ix := Index.ofDeclarations package docRoot ds
        let cx : Context := ⟨ix, catalog, source⟩
        (∀ id ∈ ix.contents.roots, id < ix.contents.nodes.size) ∧
        (∀ p, ∀ id ∈ ix.contents.childrenOf p, id < ix.contents.nodes.size) ∧
        (∀ id < ix.contents.nodes.size, Reaches ix.contents id) ∧
        check cx = warnings cx ((paths ds).filter (· ∉ ix.contents.files)) := by
  intro h
  let ds : List Declaration := [.file "a.txt" "A", .entry (some 0) ⟨"a.txt", "a.txt", none, []⟩]
  have hbare : ∀ d ∈ ds, d.IsBare := by simp [ds, IsBare]
  obtain ⟨-, -, -, hcheck⟩ :=
    h "Docs" "Docs/help" ds hbare .empty (Memory.ofList []).source
  exact absurd (congrArg List.length hcheck) (by decide)

end ContentsCoverage

end HelpAudit
