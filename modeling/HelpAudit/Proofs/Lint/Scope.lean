import HelpAudit.Proofs.Lint.Reports
import HelpAudit.Source.Memory

/-! Linting a package file by file finds what linting the whole package finds in the files. -/
namespace HelpAudit.Target

/-- Documents of the whole package are those of its files, one after the other. -/
theorem documents_wholePackage {ix : Index}
    (hn : ∀ f ∈ ix.files, Resource.normalize f.path = f.path) (source : Source)
    (scanner : Scanner) :
    ((wholePackage ix).documents source scanner).value =
      ix.files.flatMap fun f => ((singleFile ix f.path).documents source scanner).value := by
  simp only [documents_value, wholePackage, singleFile]
  generalize ix.files = fs at hn
  induction fs with
  | nil => rfl
  | cons f fs ih =>
    rw [List.flatMap_cons, ← ih fun g hg => hn g (List.mem_cons_of_mem _ hg),
      hn f List.mem_cons_self, ← List.filterMap_append]
    rfl

/-- A rule for files reports document by document. -/
theorem report_fileRules (cx : Context) (docs : List Document) {c : Checker}
    (hc : c ∈ Checker.fileRules) :
    c.report cx docs = docs.flatMap fun d => c.report cx [d] := by
  apply Checker.report_eq_flatMap cx docs (List.mem_append_left _ hc)
  revert c
  decide

theorem report_documents_wholePackage {ix : Index}
    (hn : ∀ f ∈ ix.files, Resource.normalize f.path = f.path) (catalog : Catalog)
    (source : Source) (scanner : Scanner) {c : Checker} (hc : c ∈ Checker.fileRules) :
    (wholePackage ix).findings catalog source scanner c.name =
      ix.files.flatMap fun f => (singleFile ix f.path).findings catalog source scanner c.name := by
  rw [findings_eq_report _ _ _ _ (List.mem_append_left _ hc : c ∈ Checker.all),
    documents_wholePackage hn, report_fileRules _ _ hc, List.flatMap_assoc]
  congr 1
  funext f
  rw [findings_eq_report _ _ _ _ (hc : c ∈ Checker.forScope .single),
    report_fileRules _ ((singleFile ix f.path).documents source scanner).value hc]
  rfl

/-- A file without a text leaves no document in a target that asks for it. -/
theorem documents_filter_ne (scope : Scope) (ix : Index) (files : List String) {file : String}
    {source : Source} (scanner : Scanner) (hs : source.content (ix.resource file) = none) :
    ((Target.mk scope ix (files.filter (· ≠ file))).documents source scanner).value =
      ((Target.mk scope ix files).documents source scanner).value := by
  simp only [documents_value]
  induction files with
  | nil => rfl
  | cons g files ih =>
    by_cases hg : g = file
    · rw [List.filter_cons_of_neg (by simp [hg]), ih, List.filterMap_cons_none (by simp [hg, hs])]
    · rw [List.filter_cons_of_pos (by simp [hg]), List.filterMap_cons, List.filterMap_cons, ih]

/-- The findings about anchors and links of a package are those of its files one by one, and a
file without a text has no part in either run. -/
theorem wholePackage_findings_eq_files {ix : Index}
    (hn : ∀ f ∈ ix.files, Resource.normalize f.path = f.path) (catalog : Catalog)
    (source : Source) (scanner : Scanner) :
    ((wholePackage ix).findings catalog source scanner Anchor.ruleName =
        ix.files.flatMap fun f =>
          (singleFile ix f.path).findings catalog source scanner Anchor.ruleName) ∧
      ((wholePackage ix).findings catalog source scanner Link.ruleName =
        ix.files.flatMap fun f =>
          (singleFile ix f.path).findings catalog source scanner Link.ruleName) ∧
      ∀ f ∈ ix.files, source.content (ix.resource f.path) = none →
        ((singleFile ix f.path).lint catalog source scanner).value = ([], 0) ∧
        ((Target.mk .package ix ((ix.files.map (·.path)).filter (· ≠ f.path))).lint
            catalog source scanner).value =
          ((wholePackage ix).lint catalog source scanner).value := by
  have hanchor : Checker.anchor [] ∈ Checker.fileRules := List.mem_cons_self
  have hlink : Checker.link [] ∈ Checker.fileRules := List.mem_cons_of_mem _ List.mem_cons_self
  refine ⟨report_documents_wholePackage hn catalog source scanner hanchor,
    report_documents_wholePackage hn catalog source scanner hlink, ?_⟩
  intro f hf hs
  constructor
  · have hdocs : ((singleFile ix f.path).documents source scanner).value = [] := by
      simp [documents_value, singleFile, hn f hf, hs]
    rw [lint_value, hdocs]
    rfl
  · rw [lint_value, lint_value, documents_filter_ne _ _ _ _ hs]
    rfl

/-- Three files, of which the last has no text. -/
def threeFiles : Index :=
  ((Draft.start "Docs" "Docs/help").declareAll
    [.file "index.txt" "Index", .file "sub/a.txt" "A", .file "gone.txt" "Gone",
      .topic ⟨"sec", "index.txt", "Section", []⟩, .topic ⟨"lost", "gone.txt", "Lost", []⟩]).build

def twoTexts : List (String × String) :=
  [("Docs/help/index.txt", "|nowhere| *sec* *sec*"), ("Docs/help/sub/a.txt", "*sec* |:x|")]

theorem threeFiles_findings :
    (∀ f ∈ threeFiles.files, Resource.normalize f.path = f.path) ∧
      ((wholePackage threeFiles).findings .empty (Memory.ofList twoTexts).source .help
        Anchor.ruleName).length = 2 ∧
      (wholePackage threeFiles).findings .empty (Memory.ofList twoTexts).source .help
          Anchor.ruleName =
        threeFiles.files.flatMap fun f => (singleFile threeFiles f.path).findings .empty
          (Memory.ofList twoTexts).source .help Anchor.ruleName := by
  have hn : ∀ f ∈ threeFiles.files, Resource.normalize f.path = f.path := by decide +kernel
  exact ⟨hn, by decide +kernel, (wholePackage_findings_eq_files hn _ _ _).1⟩

end HelpAudit.Target
