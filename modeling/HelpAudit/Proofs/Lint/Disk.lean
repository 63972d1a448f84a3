import HelpAudit.Proofs.Lint.Source
import HelpAudit.Proofs.Rule.Declared
import HelpAudit.Proofs.Source.Disk

/-!
Linting a directory is linting its texts in memory. The exception is a directory whose own name ends
in a backslash: listings of the whole of it look into the directory of the shorter name, so no index
is loaded from there, while its files can be read.
-/
namespace HelpAudit.FileTree

/-- A pattern for help files, or for files of one name. -/
def IsFilePattern (glob : String) : Prop :=
  glob = MissingSource.helpFileGlob ∨ Glob.IsFileName glob

instance (glob : String) : Decidable (IsFilePattern glob) :=
  inferInstanceAs (Decidable (_ ∨ _))

theorem IsFilePattern.exists_matchesNames {glob : String} (h : IsFilePattern glob) :
    ∃ atoms, Glob.MatchesNames glob atoms := by
  rcases h with rfl | h
  · exact ⟨_, Glob.matchesNames_txt⟩
  · exact ⟨_, h.matchesNames⟩

variable {t : FileTree} {root : String} {p : Place}

/-- No help file has a canonical path below the top under another name, so a listing of the top
does not matter here. -/
theorem IsTextFolder.lintAlike (h : t.IsTextFolder root p) :
    (t.source root).LintAlike (Memory.ofList p.node.resources).source where
  content := h.content_eq
  holds := h.holds_eq
  onDisk ix catalog := by
    have hascending (source : Source) :
        (MissingSource.onDisk ⟨ix, catalog, source⟩).Pairwise (· < ·) := NameMap.names_pairwise _
    refine (hascending _).eq_of_mem_iff (hascending _) fun file => ?_
    rw [MissingSource.mem_onDisk, MissingSource.mem_onDisk]
    dsimp only
    by_cases htop : Resource.normalize ix.docRoot = ""
    · have hnone : ¬Resource.IsCanonical (ix.docRoot ++ "/" ++ file) := fun hpath =>
        Resource.normalize_ne_empty_of_slash hpath rfl htop
      constructor
      · exact fun hdisk => absurd (isCanonical_of_mem_list hdisk) hnone
      · exact fun hmemory => absurd (Memory.isCanonical_of_mem_list hmemory) hnone
    · have hlist := h.list_eq (.inl htop) Glob.matchesNames_txt
      rw [MissingSource.helpFileGlob, hlist]

/-- Texts on disk are read, listed, loaded and linted as the same texts in memory are; for listings
of the whole directory, and so for loading, unless its path ends in a backslash. -/
theorem disk_eq_memory (h : t.IsTextFolder root p) :
    let disk := t.source root
    let memory := (Memory.ofList p.node.resources).source
    (∀ path, disk.content path = memory.content path ∧ disk.holds path = memory.holds path) ∧
    (∀ folder glob, IsFilePattern glob →
      Resource.normalize folder ≠ "" ∨ ¬EndsInBackslash root →
      disk.list folder glob = memory.list folder glob) ∧
    (∀ indexName, IsFilePattern indexName → ¬EndsInBackslash root →
      Store.openAll disk indexName = Store.openAll memory indexName) ∧
    ∀ (st : Store) (scanner : Scanner) (path : String),
      st.lint disk scanner path = st.lint memory scanner path := by
  intro disk memory
  have hlist (folder glob : String) (hglob : IsFilePattern glob)
      (hfolder : Resource.normalize folder ≠ "" ∨ ¬EndsInBackslash root) :
      disk.list folder glob = memory.list folder glob := by
    obtain ⟨atoms, hatoms⟩ := hglob.exists_matchesNames
    exact h.list_eq hfolder hatoms
  refine ⟨fun path => ⟨h.content_eq path, h.holds_eq path⟩, hlist, fun indexName hname hroot => ?_,
    h.lintAlike.store_lint⟩
  exact Store.openAll_eq_of_list h.content_eq (hlist "" indexName hname (.inr hroot))

/-- A help page, and an index that does not declare it. -/
def onePage : FileTree :=
  .folder [("a.txt", .file (some "*x* |y|")),
    ("hyperhelp.json", .file (some "\x7b\"package\":\"Docs\"\x7d"))]

def onePackage : FileTree := .folder [("Docs", .folder [("help", onePage)])]

theorem isTextTree_onePackage : IsTextTree onePackage := by
  have hpage : IsTextTree onePage := .folder (by decide +kernel) (by decide +kernel)
    (List.forall_mem_cons.mpr ⟨.file _, List.forall_mem_singleton.mpr (.file _)⟩)
  have hdocs : IsTextTree (.folder [("help", onePage)]) :=
    .folder (by decide +kernel) (by decide +kernel) (List.forall_mem_singleton.mpr hpage)
  exact .folder (by decide +kernel) (by decide +kernel) (List.forall_mem_singleton.mpr hdocs)

/-- The package in a packages directory of this name. -/
def packagesNamed (name : String) : FileTree := .folder [(name, onePackage)]

def packagesPlace (name : String) : Place := ⟨onePackage, [packagesNamed name], [name]⟩

/-- The name of a directory may hold what would be a class in a pattern. -/
theorem bracketed_disk_eq_memory :
    let disk := (packagesNamed "p[k]").source "/p[k]"
    let memory := (Memory.ofList onePackage.resources).source
    (packagesNamed "p[k]").IsTextFolder "/p[k]" (packagesPlace "p[k]") ∧
      IsFilePattern "hyperhelp.json" ∧ ¬EndsInBackslash "/p[k]" ∧
      Store.openAll disk "hyperhelp.json" = Store.openAll memory "hyperhelp.json" ∧
      (Store.openAll disk "hyperhelp.json").value.catalog.names = ["Docs"] := by
  have hfolder : (packagesNamed "p[k]").IsTextFolder "/p[k]" (packagesPlace "p[k]") :=
    ⟨by decide +kernel, by rfl, by rfl, isTextTree_onePackage⟩
  have hpattern : IsFilePattern "hyperhelp.json" := by decide +kernel
  have hroot : ¬EndsInBackslash "/p[k]" := by decide +kernel
  obtain ⟨-, -, hopen, -⟩ := disk_eq_memory hfolder
  exact ⟨hfolder, hpattern, hroot, hopen _ hpattern hroot, by decide +kernel⟩

/-- A directory whose name ends in a backslash can be read, but is listed as if it were empty. -/
theorem backslashed_disk_ne_memory :
    let disk := (packagesNamed "pk\\").source "/pk\\"
    let memory := (Memory.ofList onePackage.resources).source
    (packagesNamed "pk\\").IsTextFolder "/pk\\" (packagesPlace "pk\\") ∧
      (disk.content "Docs/help/hyperhelp.json").isSome = true ∧
      (disk.list "" "hyperhelp.json").value = [] ∧
      (memory.list "" "hyperhelp.json").value = ["Docs/help/hyperhelp.json"] ∧
      (Store.openAll disk "hyperhelp.json").value.catalog.names = [] ∧
      (Store.openAll memory "hyperhelp.json").value.catalog.names = ["Docs"] := by
  have hfolder : (packagesNamed "pk\\").IsTextFolder "/pk\\" (packagesPlace "pk\\") :=
    ⟨by decide +kernel, by rfl, by rfl, isTextTree_onePackage⟩
  exact ⟨hfolder, by decide +kernel, by decide +kernel, by decide +kernel, by decide +kernel,
    by decide +kernel⟩

end HelpAudit.FileTree
