import HelpAudit.Proofs.Glob
import HelpAudit.Proofs.Lint.Reports
import HelpAudit.Proofs.Rule.Declared
import HelpAudit.Proofs.Source.Memory
import HelpAudit.Proofs.Target.Owner

/-!
Files that are read and files that are listed. A file is read under any spelling of its path and any
name; the listing shows it by its canonical path, and only when its name has the ending of a help
file. A file that is read is reported as absent when the listing does not show it as it is declared.
At the top of the packages a lone slash is taken off the paths that are listed. None starts with
one, so every file of a package whose documentation folder is the top is reported as absent.
-/
namespace HelpAudit.MissingSource

open Resource (leaf normalize)

/-- The name ends as that of a help file. -/
def HasHelpEnding (file : String) : Prop := ".txt".toList <:+ (leaf file).toList

instance (file : String) : Decidable (HasHelpEnding file) :=
  inferInstanceAs (Decidable (_ <:+ _))

theorem parse?_helpFileGlob : Glob.parse? helpFileGlob =
    some (.anyRun :: ".txt".toList.map .literal) :=
  Glob.matchesNames_txt.name

theorem matches_helpFileGlob (file : String) :
    Glob.matchesName (.anyRun :: ".txt".toList.map .literal) (leaf file).toList = true ↔
      HasHelpEnding file :=
  Glob.matchesName_anyRun_literals _ _

theorem HasHelpEnding.ne_empty {file : String} (h : HasHelpEnding file) : file ≠ "" := by
  rintro rfl
  revert h
  decide

/-- The listing below a folder shows what is held under a path that goes on from the folder's. -/
theorem mem_onDisk_iff_contains {m : Memory} {ix : Index}
    (hroot : Resource.IsCanonical ix.docRoot) (hne : ix.docRoot ≠ "") (catalog : Catalog)
    (file : String) : file ∈ onDisk ⟨ix, catalog, m.source⟩ ↔
      NameMap.contains m (ix.docRoot ++ "/" ++ file) = true ∧ HasHelpEnding file := by
  have hbelow : Resource.below? ix.docRoot (ix.docRoot ++ "/" ++ file) = some file :=
    (Resource.below?_eq_some_iff hne).mpr rfl
  rw [mem_onDisk]
  change _ ∈ Memory.list m ix.docRoot helpFileGlob ↔ _
  rw [Memory.mem_list parse?_helpFileGlob, Resource.isCanonical_iff.mp hroot, hbelow,
    Resource.leaf_append, matches_helpFileGlob]
  simp

/-- The listing below a folder shows the help files that are held there, by their canonical
paths. -/
theorem mem_onDisk_memory {m : Memory} (hm : m.Canonical) {ix : Index}
    (hroot : Resource.IsCanonical ix.docRoot) (hne : ix.docRoot ≠ "") (catalog : Catalog)
    (file : String) : file ∈ onDisk ⟨ix, catalog, m.source⟩ ↔
      normalize file = file ∧ HasHelpEnding file ∧
        NameMap.contains m (ix.resource file) = true := by
  rw [mem_onDisk_iff_contains hroot hne]
  constructor
  · rintro ⟨hheld, hending⟩
    obtain ⟨text, htext⟩ := Option.isSome_iff_exists.mp hheld
    have hpath := Resource.isCanonical_iff.mpr (hm _ text htext)
    obtain ⟨hfile, hfile', -⟩ := Resource.segments_of_eq_append hroot hne hpath rfl
    refine ⟨Resource.isCanonical_iff.mp hfile, hending, ?_⟩
    rw [Index.resource, Resource.join_eq_append hroot hne hfile hfile']
    exact hheld
  · rintro ⟨hfile, hending, hheld⟩
    rw [Index.resource, Resource.join_eq_append hroot hne (Resource.isCanonical_iff.mpr hfile)
      hending.ne_empty] at hheld
    exact ⟨hheld, hending⟩

/-- At the top no file is taken to be on disk: a canonical path has no slash in front. -/
theorem not_mem_onDisk_top {m : Memory} (hm : m.Canonical) {ix : Index} (htop : ix.docRoot = "")
    (catalog : Catalog) (file : String) : file ∉ onDisk ⟨ix, catalog, m.source⟩ := by
  intro hfile
  have hlisted : ix.docRoot ++ "/" ++ file ∈ Memory.list m ix.docRoot helpFileGlob :=
    mem_onDisk.mp hfile
  rw [htop] at hlisted
  have hcanonical := Resource.isCanonical_iff.mpr (Memory.normalize_of_mem_list hm hlisted)
  exact Resource.normalize_ne_empty_of_slash hcanonical rfl rfl

theorem absentMessage_injective {file file' docRoot : String}
    (h : absentMessage file docRoot = absentMessage file' docRoot) : file = file' := by
  simpa only [absentMessage, String.append_left_inj, String.append_right_inj] using h

theorem unlistedMessage_ne_absentMessage (file file' docRoot : String) :
    unlistedMessage file docRoot ≠ absentMessage file' docRoot := by
  intro h
  have hlast := congrArg (fun s => s.toList.getLast?) h
  simp only [unlistedMessage, absentMessage, String.toList_append, List.getLast?_append] at hlast
  simp at hlast

/-- A file is reported as absent when it is declared and not among the listed ones. -/
theorem exists_absentMessage_iff {cx : Context} {file : String} :
    (∃ x ∈ check cx, x.message = absentMessage file cx.index.docRoot) ↔
      file ∈ cx.index.files.map (·.path) ∧ file ∉ onDisk cx := by
  constructor
  · rintro ⟨x, hx, hmessage⟩
    rcases List.mem_append.mp hx with hx | hx
    · obtain ⟨f, -, rfl⟩ := List.mem_map.mp hx
      exact absurd hmessage (unlistedMessage_ne_absentMessage f file _)
    · obtain ⟨f, hf, rfl⟩ := List.mem_map.mp hx
      obtain ⟨hdeclared, habsent⟩ := List.mem_filter.mp hf
      obtain rfl := absentMessage_injective hmessage
      exact ⟨List.mem_map_of_mem hdeclared, by simpa using habsent⟩
  · rintro ⟨hdeclared, habsent⟩
    obtain ⟨f, hf, rfl⟩ := List.mem_map.mp hdeclared
    refine ⟨_, List.mem_append_right _ (List.mem_map_of_mem (List.mem_filter.mpr ⟨hf, ?_⟩)), rfl⟩
    simpa using habsent

open Target (wholePackage)

/-- A file of the package that is read and scanned is reported as absent exactly when the
documentation folder is the top of the packages, the declared path is not in canonical form, or its
name does not end as that of a help file. -/
theorem scanned_absent_iff {ix : Index} (hix : ix.IsBuilt) (catalog : Catalog)
    (files : List (String × String)) (scanner : Scanner) {d : Document}
    (hd : d ∈ ((wholePackage ix).documents (Memory.ofList files).source scanner).value) :
    (∃ x ∈ (wholePackage ix).findings catalog (Memory.ofList files).source scanner ruleName,
        x.message = absentMessage d.file ix.docRoot) ↔
      ix.docRoot = "" ∨ normalize d.file ≠ d.file ∨ ¬ HasHelpEnding d.file := by
  obtain ⟨file, hfile, text, hcontent, rfl⟩ := Target.mem_documents.mp hd
  have hheld : NameMap.contains (Memory.ofList files) (ix.resource file) = true := by
    have hcanonical : normalize (ix.resource file) = ix.resource file :=
      Resource.normalize_normalize _
    have hfound : NameMap.find? (Memory.ofList files) (normalize (ix.resource file)) = some text :=
      hcontent
    rw [hcanonical] at hfound
    exact Option.isSome_iff_exists.mpr ⟨text, hfound⟩
  have hrule : Checker.missingSource ∈ Checker.forScope (wholePackage ix).scope :=
    List.mem_append_right _ List.mem_cons_self
  have hfindings : (wholePackage ix).findings catalog (Memory.ofList files).source scanner
      ruleName = check ⟨ix, catalog, (Memory.ofList files).source⟩ := by
    refine ((wholePackage ix).findings_eq_report catalog _ scanner hrule).trans ?_
    exact Checker.report_missingSource _ _
  have hdeclared : file ∈ ix.files.map (·.path) := hfile
  have hstored := Memory.canonical_ofList files
  have hlisted : file ∉ onDisk ⟨ix, catalog, (Memory.ofList files).source⟩ ↔
      ix.docRoot = "" ∨ normalize file ≠ file ∨ ¬ HasHelpEnding file := by
    by_cases hroot : ix.docRoot = ""
    · exact iff_of_true (not_mem_onDisk_top hstored hroot catalog file) (.inl hroot)
    · rw [mem_onDisk_memory hstored hix.docRoot_canonical hroot, and_iff_left hheld,
        not_and_or, or_iff_right hroot]
  rw [hfindings]
  exact exists_absentMessage_iff.trans ((and_iff_right hdeclared).trans hlisted)

/-- A page with the usual ending, one with another and one under another spelling. -/
def oddPages : Index :=
  ((Draft.start "Docs" "Docs/help").declareAll
    [.file "b.txt" "B", .file "notes.md" "Notes", .file "./a.txt" "A"]).build

def oddTexts : List (String × String) :=
  [("Docs/help/b.txt", ""), ("Docs/help/notes.md", ""), ("Docs/help/a.txt", "")]

/-- A page at the top of the packages folder. -/
def topPage : Index := ((Draft.start "Docs" "").declareAll [.file "b.txt" "B"]).build

def topTexts : List (String × String) := [("b.txt", "")]

/-- Below a folder the page with the usual ending is not reported, and the other two are. At the
top the page with the usual ending is. -/
theorem oddPages_absent : oddPages.IsBuilt ∧ topPage.IsBuilt ∧
    (∀ file ∈ ["b.txt", "notes.md", "./a.txt"], Document.scan .help file "" ∈
      ((wholePackage oddPages).documents (Memory.ofList oddTexts).source .help).value) ∧
    (∀ file ∈ ["b.txt", "notes.md", "./a.txt"],
      (∃ x ∈ (wholePackage oddPages).findings .empty (Memory.ofList oddTexts).source .help
        ruleName, x.message = absentMessage file oddPages.docRoot) ↔ file ≠ "b.txt") ∧
    Document.scan .help "b.txt" "" ∈
      ((wholePackage topPage).documents (Memory.ofList topTexts).source .help).value ∧
    ∃ x ∈ (wholePackage topPage).findings .empty (Memory.ofList topTexts).source .help ruleName,
      x.message = absentMessage "b.txt" topPage.docRoot := by
  have hodd : oddPages.IsBuilt := ⟨_, _, _, rfl⟩
  have htop : topPage.IsBuilt := ⟨_, _, _, rfl⟩
  have hscanned : ∀ file ∈ ["b.txt", "notes.md", "./a.txt"], Document.scan .help file "" ∈
      ((wholePackage oddPages).documents (Memory.ofList oddTexts).source .help).value := by
    have hread : ∀ file ∈ ["b.txt", "notes.md", "./a.txt"], file ∈ (wholePackage oddPages).files ∧
        (Memory.ofList oddTexts).source.content (oddPages.resource file) = some "" := by
      decide +kernel
    intro file hfile
    obtain ⟨hmem, hcontent⟩ := hread file hfile
    exact Target.mem_documents.mpr ⟨file, hmem, "", hcontent, rfl⟩
  have hscannedTop : Document.scan .help "b.txt" "" ∈
      ((wholePackage topPage).documents (Memory.ofList topTexts).source .help).value := by
    have hread : "b.txt" ∈ (wholePackage topPage).files ∧
        (Memory.ofList topTexts).source.content (topPage.resource "b.txt") = some "" := by
      decide +kernel
    exact Target.mem_documents.mpr ⟨"b.txt", hread.1, "", hread.2, rfl⟩
  refine ⟨hodd, htop, hscanned, fun file hfile => ?_, hscannedTop, ?_⟩
  · refine (scanned_absent_iff hodd .empty oddTexts .help (hscanned file hfile)).trans ?_
    revert file
    decide +kernel
  · exact (scanned_absent_iff htop .empty topTexts .help hscannedTop).mpr (.inl rfl)

/-- Two of the pages are scanned and reported as absent, and so is the page at the top. -/
theorem scanned_and_absent :
    ((wholePackage oddPages).documents (Memory.ofList oddTexts).source .help).value.map (·.file) =
      ["b.txt", "notes.md", "./a.txt"] ∧
    ((wholePackage oddPages).findings .empty (Memory.ofList oddTexts).source .help ruleName).map
        (·.message) =
      ["Help file 'a.txt' is in Docs/help/ but missing from the index",
        "Help file 'notes.md' is in the index but not in Docs/help/",
        "Help file './a.txt' is in the index but not in Docs/help/"] ∧
    ((wholePackage topPage).documents (Memory.ofList topTexts).source .help).value.map (·.file) =
      ["b.txt"] ∧
    ((wholePackage topPage).findings .empty (Memory.ofList topTexts).source .help ruleName).map
        (·.message) = ["Help file 'b.txt' is in the index but not in /"] ∧
    ¬ ∀ ix : Index, ix.IsBuilt → ∀ (catalog : Catalog) (files : List (String × String))
        (scanner : Scanner),
      ∀ d ∈ ((wholePackage ix).documents (Memory.ofList files).source scanner).value,
      ∀ x ∈ (wholePackage ix).findings catalog (Memory.ofList files).source scanner ruleName,
        x.message ≠ absentMessage d.file ix.docRoot := by
  refine ⟨by decide +kernel, by decide +kernel, by decide +kernel, by decide +kernel, fun h => ?_⟩
  have hnone := h topPage ⟨_, _, _, rfl⟩ .empty topTexts .help
  revert hnone
  decide +kernel

end HelpAudit.MissingSource
