import HelpAudit.Proofs.Lint.Reports

/-!
What loading and a run ask of the source: the texts, whether files are there, and the listings of
indexes and of help files. Two sources that answer these alike give the same catalog and the same
run.
-/
namespace HelpAudit

namespace Store

variable {source source' : Source}

theorem gather_eq_of_content (h : ∀ path, source.content path = source'.content path)
    (catalog : Catalog) (locations : List String) :
    gather source catalog locations = gather source' catalog locations := by
  have hadd (catalog : Catalog) (location : String) :
      addLocation source catalog location = addLocation source' catalog location := by
    rw [addLocation, addLocation, loadAt, loadAt, h]
  induction locations generalizing catalog with
  | nil => rfl
  | cons location locations ih =>
    rw [gather, gather, hadd]
    exact congrArg _ (funext ih)

/-- A full load looks at the texts and at one listing. -/
theorem openAll_eq_of_list {indexName : String}
    (h : ∀ path, source.content path = source'.content path)
    (hlist : source.list "" indexName = source'.list "" indexName) :
    openAll source indexName = openAll source' indexName := by
  have hgather : gather source .empty = gather source' .empty :=
    funext (gather_eq_of_content h _)
  unfold openAll reloadAll
  rw [hgather]
  exact congrArg (· >>= _) hlist

end Store

/-- The sources have the same texts and files, and show the same help files of any package. -/
structure Source.LintAlike (source source' : Source) : Prop where
  content : ∀ path, source.content path = source'.content path
  holds : ∀ path, source.holds path = source'.holds path
  onDisk : ∀ (ix : Index) (catalog : Catalog),
    MissingSource.onDisk ⟨ix, catalog, source⟩ = MissingSource.onDisk ⟨ix, catalog, source'⟩

namespace Source.LintAlike

variable {source source' : Source} (h : source.LintAlike source') (ix : Index) (catalog : Catalog)
include h

theorem link_check (d : Document) :
    Link.check ⟨ix, catalog, source⟩ d = Link.check ⟨ix, catalog, source'⟩ d := by
  have htopic (ref : PackageRef) (other : Index) (topic : String) :
      Link.topicFault? ⟨ix, catalog, source⟩ ref other topic =
        Link.topicFault? ⟨ix, catalog, source'⟩ ref other topic := by
    unfold Link.topicFault?
    simp only [h.holds]
  have hfault (body : String) :
      Link.fault? ⟨ix, catalog, source⟩ body = Link.fault? ⟨ix, catalog, source'⟩ body := by
    unfold Link.fault?
    simp only [htopic]
    rfl
  apply List.filterMap_congr
  intro s _
  rw [hfault]

theorem missingSource_check :
    MissingSource.check ⟨ix, catalog, source⟩ = MissingSource.check ⟨ix, catalog, source'⟩ := by
  unfold MissingSource.check
  rw [h.onDisk]
  rfl

/-- No rule tells the sources apart. -/
theorem report {c : Checker} (hc : c ∈ Checker.all) (docs : List Document) :
    c.report ⟨ix, catalog, source⟩ docs = c.report ⟨ix, catalog, source'⟩ docs :=
  Checker.report_congr docs (fun d _ => h.link_check ix catalog d) (fun _ _ => rfl)
    (h.missingSource_check ix catalog) hc

theorem lint (t : Target) (scanner : Scanner) :
    t.lint catalog source scanner = t.lint catalog source' scanner := by
  have hdocs : t.documents source scanner = t.documents source' scanner := by
    apply Logged.ext_value_events
    · simp only [Target.documents_value, h.content]
    · simp only [Target.documents_events, h.content]
  apply Logged.ext_value_events
  · rw [Target.lint_value, Target.lint_value, hdocs]
    congr 1
    exact List.flatMap_congr fun c hc =>
      h.report t.index catalog (Checker.forScope_subset_all _ c hc) _
  · rw [Target.lint_events, Target.lint_events, hdocs]

theorem store_lint (st : Store) (scanner : Scanner) (path : String) :
    st.lint source scanner path = st.lint source' scanner path := by
  unfold Store.lint
  simp only [h.lint]

end Source.LintAlike

end HelpAudit
