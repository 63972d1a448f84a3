import HelpAudit.Proofs.Lint.Reports
import HelpAudit.Source.Memory

/-! A run rule by rule and file by file: each rule reports what it would report alone, each file is
scanned or noted, and the order of the files orders the findings of the rules for documents. -/
namespace HelpAudit.Target

variable (t : Target) (catalog : Catalog) (source : Source) (scanner : Scanner)

/-- The same target with other files. -/
def withFiles (files : List String) : Target := { t with files := files }

/-- What reading a file gives: its document, if it has a text. -/
def document? (file : String) : Option Document :=
  (source.content (t.index.resource file)).map (.scan scanner file)

/-- The documents of the files that have a text, in the order of the files. -/
def available : List Document := t.files.filterMap (t.document? source scanner)

theorem documents_withFiles (files : List String) :
    ((t.withFiles files).documents source scanner).value =
      files.filterMap (t.document? source scanner) := documents_value ..

variable {t catalog source scanner} in
/-- A rule that does not run finds nothing. -/
theorem findings_eq_nil {rule : String} (h : ∀ c ∈ Checker.forScope t.scope, c.name ≠ rule) :
    t.findings catalog source scanner rule = [] := by
  rw [findings, lint_value, List.filter_flatMap, List.flatMap_eq_nil_iff]
  intro c hc
  exact Checker.filter_report_of_ne (Checker.forScope_subset_all _ c hc) (h c hc)

/-- A rule for the package finds the same in every order of the files. -/
theorem findings_withFiles_of_perm {rule : String} (hrule : rule ∈ Checker.perPackage)
    {files files' : List String} (h : files.Perm files') :
    (t.withFiles files).findings catalog source scanner rule =
      (t.withFiles files').findings catalog source scanner rule := by
  by_cases hrun : ∃ c ∈ Checker.forScope t.scope, c.name = rule
  · obtain ⟨c, hc, rfl⟩ := hrun
    rw [(t.withFiles files).findings_eq_report catalog source scanner hc,
      (t.withFiles files').findings_eq_report catalog source scanner hc, documents_withFiles,
      documents_withFiles]
    exact Checker.report_eq_of_perm _ (Checker.forScope_subset_all _ c hc) hrule (h.filterMap _)
  · have hnone : ∀ c ∈ Checker.forScope t.scope, c.name ≠ rule := by simpa using hrun
    rw [findings_eq_nil (t := t.withFiles files) hnone,
      findings_eq_nil (t := t.withFiles files') hnone]

/-- A rule for documents finds what it finds in the files one by one. -/
theorem findings_withFiles_eq_flatMap {rule : String} (hrule : rule ∈ Checker.perDocument)
    (files : List String) :
    (t.withFiles files).findings catalog source scanner rule =
      files.flatMap fun file => (t.withFiles [file]).findings catalog source scanner rule := by
  by_cases hrun : ∃ c ∈ Checker.forScope t.scope, c.name = rule
  · obtain ⟨c, hc, rfl⟩ := hrun
    have hreport : ∀ files, (t.withFiles files).findings catalog source scanner c.name =
        (files.filterMap (t.document? source scanner)).flatMap
          fun d => c.report ⟨t.index, catalog, source⟩ [d] := by
      intro files
      rw [(t.withFiles files).findings_eq_report catalog source scanner hc, documents_withFiles]
      exact Checker.report_eq_flatMap _ _ (Checker.forScope_subset_all _ c hc) hrule
    induction files with
    | nil => exact hreport []
    | cons file files ih =>
      rw [List.flatMap_cons, ← ih, hreport, hreport [file], hreport files, ← List.flatMap_append,
        ← List.filterMap_append, List.singleton_append]
  · have hnone : ∀ c ∈ Checker.forScope t.scope, c.name ≠ rule := by simpa using hrun
    rw [findings_eq_nil (t := t.withFiles files) hnone, eq_comm, List.flatMap_eq_nil_iff]
    intro file _
    exact findings_eq_nil (t := t.withFiles [file]) hnone

/-- The findings of a run are those of its rules, each alone with all documents, in the order of the
rules. Each file of the target is scanned or noted as unavailable. In another order of the files
the rules for the package find the same, and the rules for documents find the same of each file, in
the order of the files. -/
theorem lint_rule_by_rule :
    (t.lint catalog source scanner).value = ((Checker.forScope t.scope).flatMap fun c =>
        ((c.scanAll ⟨t.index, catalog, source⟩ (t.available source scanner)).finish
          ⟨t.index, catalog, source⟩).1,
      (t.available source scanner).length) ∧
    (t.lint catalog source scanner).events =
      (t.files.filter fun file => (source.content (t.index.resource file)).isNone).map
        (.contentUnavailable · t.index.package) ∧
    (t.lint catalog source scanner).value.2 + (t.lint catalog source scanner).events.length =
      t.files.length ∧
    ∀ files, files.Perm t.files →
      (∀ rule ∈ Checker.perPackage, (t.withFiles files).findings catalog source scanner rule =
        t.findings catalog source scanner rule) ∧
      ∀ rule ∈ Checker.perDocument,
        (t.withFiles files).findings catalog source scanner rule =
          files.flatMap (fun file => (t.withFiles [file]).findings catalog source scanner rule) ∧
        t.findings catalog source scanner rule =
          t.files.flatMap
            fun file => (t.withFiles [file]).findings catalog source scanner rule := by
  have hdocs : (t.documents source scanner).value = t.available source scanner :=
    documents_value ..
  refine ⟨?_, ?_, ?_, fun files hfiles => ⟨fun rule hrule => ?_, fun rule hrule => ⟨?_, ?_⟩⟩⟩
  · rw [lint_value, hdocs]
    rfl
  · rw [lint_events, documents_events]
  · rw [lint_events, lint_value]
    exact t.length_documents source scanner
  · exact t.findings_withFiles_of_perm catalog source scanner hrule hfiles
  · exact t.findings_withFiles_eq_flatMap catalog source scanner hrule files
  · exact t.findings_withFiles_eq_flatMap catalog source scanner hrule t.files

/-- Three pages, of which the second has no text. -/
def threePages : Target :=
  .wholePackage ((Draft.start "Docs" "Docs/help").declareAll
    [.file "index.txt" "Index", .file "gone.txt" "Gone", .file "a.txt" "A",
      .topic ⟨"sec", "a.txt", "Section", []⟩]).build

def twoPages : Source :=
  (Memory.ofList
    [("Docs/help/index.txt", "|sec| |x| *y*"), ("Docs/help/a.txt", "*sec* *z*")]).source

/-- The pages in reverse give the same findings about orphans and those about anchors in reverse. -/
theorem threePages_reversed :
    (threePages.lint .empty twoPages .help).value.2 = 2 ∧
    (threePages.lint .empty twoPages .help).events = [.contentUnavailable "gone.txt" "Docs"] ∧
    (threePages.withFiles ["a.txt", "gone.txt", "index.txt"]).findings .empty twoPages .help
        Orphan.ruleName = threePages.findings .empty twoPages .help Orphan.ruleName ∧
    ((threePages.withFiles ["a.txt", "gone.txt", "index.txt"]).findings .empty twoPages .help
        Anchor.ruleName).map (·.message) =
      ["Topic 'z' was not found in the help index",
        "Topic 'y' was not found in the help index"] := by
  have hreversed : ["a.txt", "gone.txt", "index.txt"].Perm threePages.files := by
    decide +kernel
  obtain ⟨-, hevents, -, horder⟩ := lint_rule_by_rule threePages .empty twoPages .help
  obtain ⟨hpackage, hdocument⟩ := horder _ hreversed
  refine ⟨by decide +kernel, ?_, hpackage _ (by decide), ?_⟩
  · rw [hevents]
    have hgone : (threePages.files.filter fun file =>
        (twoPages.content (threePages.index.resource file)).isNone) = ["gone.txt"] := by
      decide +kernel
    rw [hgone]
    rfl
  · rw [(hdocument Anchor.ruleName (by decide)).1]
    decide +kernel

end HelpAudit.Target
