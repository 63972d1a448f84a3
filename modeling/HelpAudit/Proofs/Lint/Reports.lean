import HelpAudit.Lint
import Mathlib.Data.List.Basic

/-!
A run rule by rule. The rules scan the documents side by side, yet each reports what it would
report alone, under its own name.
-/
namespace HelpAudit

namespace Logged

variable {α β : Type}

theorem mapM_value (f : α → Logged β) (xs : List α) :
    (xs.mapM f).value = xs.map fun x => (f x).value := by
  induction xs with
  | nil => rfl
  | cons x xs ih => rw [List.mapM_cons, bind_value, bind_value, pure_value, ih, List.map_cons]

theorem mapM_events (f : α → Logged β) (xs : List α) :
    (xs.mapM f).events = xs.flatMap fun x => (f x).events := by
  induction xs with
  | nil => rfl
  | cons x xs ih =>
    rw [List.mapM_cons, bind_events, bind_events, pure_events, ih, List.append_nil,
      List.flatMap_cons]

theorem ext_value_events {x y : Logged α} (hv : x.value = y.value) (he : x.events = y.events) :
    x = y := by
  cases x
  cases y
  simp_all

end Logged

/-- The documents of a target are its files that have a text, in order. -/
theorem Target.documents_value (t : Target) (source : Source) (scanner : Scanner) :
    (t.documents source scanner).value = t.files.filterMap fun file =>
      (source.content (t.index.resource file)).map (Document.scan scanner file) := by
  have hreduce : ∀ found : List (Option Document), found.reduceOption = found.filterMap id :=
    fun _ => rfl
  rw [documents, Logged.bind_value, Logged.pure_value, Logged.mapM_value, hreduce,
    List.filterMap_map]
  congr 1
  funext file
  cases h : source.content (t.index.resource file) with
  | none => simp only [Function.comp_apply, id_eq, h]; rfl
  | some text => simp only [Function.comp_apply, id_eq, h]; rfl

theorem Target.mem_documents {t : Target} {source : Source} {scanner : Scanner} {d : Document} :
    d ∈ (t.documents source scanner).value ↔ ∃ file ∈ t.files, ∃ text,
      source.content (t.index.resource file) = some text ∧ Document.scan scanner file text = d := by
  simp only [documents_value, List.mem_filterMap, Option.map_eq_some_iff]

/-- Files without a text are noted, in order. -/
theorem Target.documents_events (t : Target) (source : Source) (scanner : Scanner) :
    (t.documents source scanner).events =
      (t.files.filter fun file => (source.content (t.index.resource file)).isNone).map
        (.contentUnavailable · t.index.package) := by
  rw [documents, Logged.bind_events, Logged.pure_events, Logged.mapM_events, List.append_nil]
  induction t.files with
  | nil => rfl
  | cons file files ih =>
    rw [List.flatMap_cons, ih]
    cases h : source.content (t.index.resource file) with
    | none =>
      rw [List.filter_cons_of_pos (by simp [h]), List.map_cons]
      rfl
    | some text =>
      rw [List.filter_cons_of_neg (by simp [h])]
      rfl

/-- Each file is scanned or noted. -/
theorem Target.length_documents (t : Target) (source : Source) (scanner : Scanner) :
    (t.documents source scanner).value.length + (t.documents source scanner).events.length =
      t.files.length := by
  rw [documents_value, documents_events, List.length_map]
  induction t.files with
  | nil => rfl
  | cons file files ih =>
    cases h : source.content (t.index.resource file) with
    | none =>
      simp [h] at ih ⊢
      omega
    | some text =>
      simp [h] at ih ⊢
      omega

namespace Checker

/-- What a rule reports of documents that it scans on its own. -/
def report (cx : Context) (docs : List Document) (c : Checker) : List Diagnostic :=
  ((c.scanAll cx docs).finish cx).1

variable (cx : Context) (docs : List Document)

@[simp] theorem scanAll_cons (d : Document) (c : Checker) :
    c.scanAll cx (d :: docs) = (c.scan cx d).scanAll cx docs := rfl

/-- A rule that adds to a list with each document ends with what all documents add. -/
theorem scanAll_of_scan_append {α : Type} {rule : List α → Checker} {check : Document → List α}
    (h : ∀ found d, (rule found).scan cx d = rule (found ++ check d)) (found : List α) :
    (rule found).scanAll cx docs = rule (found ++ docs.flatMap check) := by
  induction docs generalizing found with
  | nil => simp [scanAll]
  | cons d docs ih => rw [scanAll_cons, h, ih, List.flatMap_cons, List.append_assoc]

/-- A rule that does not look at documents stays as it is. -/
theorem scanAll_of_scan_eq {c : Checker} (h : ∀ d, c.scan cx d = c) : c.scanAll cx docs = c := by
  induction docs with
  | nil => rfl
  | cons d docs ih => rw [scanAll_cons, h, ih]

@[simp] theorem report_anchor : report cx docs (anchor []) = docs.flatMap (Anchor.check cx) := by
  rw [report, scanAll_of_scan_append cx docs (fun _ _ => rfl), finish, List.nil_append]

@[simp] theorem report_link : report cx docs (link []) = docs.flatMap (Link.check cx) := by
  rw [report, scanAll_of_scan_append cx docs (fun _ _ => rfl), finish, List.nil_append]

@[simp] theorem report_title : report cx docs (title []) = docs.flatMap (Title.check cx) := by
  rw [report, scanAll_of_scan_append cx docs (fun _ _ => rfl), finish, List.nil_append]

@[simp] theorem report_orphan (linked : List String) :
    report cx docs (orphan linked) =
      Orphan.check cx (linked ++ docs.flatMap (Orphan.linkedFiles cx)) := by
  rw [report, scanAll_of_scan_append cx docs (fun _ _ => rfl), finish]

@[simp] theorem report_missingSource : report cx docs missingSource = MissingSource.check cx := by
  rw [report, scanAll_of_scan_eq cx docs (fun _ => rfl), finish]

@[simp] theorem report_contentsCoverage :
    report cx docs contentsCoverage = ContentsCoverage.check cx := by
  rw [report, scanAll_of_scan_eq cx docs (fun _ => rfl), finish]

/-- The rules that judge each document by itself. -/
def perDocument : List String := [Anchor.ruleName, Link.ruleName, Title.ruleName]

/-- The rules that judge the package, if need be by all its documents. -/
def perPackage : List String :=
  [MissingSource.ruleName, ContentsCoverage.ruleName, Orphan.ruleName]

/-- A rule for documents reports one document after the other. -/
theorem report_eq_flatMap {c : Checker} (hc : c ∈ all) (hname : c.name ∈ perDocument) :
    c.report cx docs = docs.flatMap fun d => c.report cx [d] := by
  simp only [all, fileRules, List.cons_append, List.nil_append, List.mem_cons,
    List.not_mem_nil, or_false] at hc
  rcases hc with rfl | rfl | rfl | rfl | rfl | rfl
  case inl => simp
  case inr.inl => simp
  case inr.inr.inr.inl => simp
  all_goals exact absurd hname (by decide)

/-- A rule for the package does not see the order of the documents. -/
theorem report_eq_of_perm {c : Checker} (hc : c ∈ all) (hname : c.name ∈ perPackage)
    {docs docs' : List Document} (h : docs.Perm docs') : c.report cx docs = c.report cx docs' := by
  simp only [all, fileRules, List.cons_append, List.nil_append, List.mem_cons,
    List.not_mem_nil, or_false] at hc
  rcases hc with rfl | rfl | rfl | rfl | rfl | rfl
  case inr.inr.inl => simp
  case inr.inr.inr.inr.inl => simp
  case inr.inr.inr.inr.inr =>
    rw [report_orphan, report_orphan, Orphan.check, Orphan.check]
    congr 1
    apply List.filter_congr
    intro f _
    have hlinked := (h.flatMap_right (Orphan.linkedFiles cx)).append_left [Orphan.rootFile]
    rw [hlinked.contains_eq]
  all_goals exact absurd hname (by decide)

/-- A rule looks at the catalog and the source through links and through the help files that are
there. -/
theorem report_congr {ix : Index} {catalog catalog' : Catalog} {source source' : Source}
    (hlink : ∀ d ∈ docs,
      Link.check ⟨ix, catalog, source⟩ d = Link.check ⟨ix, catalog', source'⟩ d)
    (hlinked : ∀ d ∈ docs,
      Orphan.linkedFiles ⟨ix, catalog, source⟩ d = Orphan.linkedFiles ⟨ix, catalog', source'⟩ d)
    (hthere : MissingSource.check ⟨ix, catalog, source⟩ =
      MissingSource.check ⟨ix, catalog', source'⟩) {c : Checker} (hc : c ∈ all) :
    c.report ⟨ix, catalog, source⟩ docs = c.report ⟨ix, catalog', source'⟩ docs := by
  simp only [all, fileRules, List.cons_append, List.nil_append, List.mem_cons,
    List.not_mem_nil, or_false] at hc
  rcases hc with rfl | rfl | rfl | rfl | rfl | rfl
  case inr.inl =>
    rw [report_link, report_link]
    exact List.flatMap_congr hlink
  case inr.inr.inl => rw [report_missingSource, report_missingSource, hthere]
  case inr.inr.inr.inr.inr =>
    rw [report_orphan, report_orphan, List.flatMap_congr hlinked]
    rfl
  -- The other rules are given neither.
  all_goals
    simp only [report_anchor, report_title, report_contentsCoverage]
    rfl

variable {cx docs}

/-- A finding of a rule comes from its check of a document or of the index. -/
@[elab_as_elim]
theorem report_cases {motive : Checker → Diagnostic → Prop}
    (anchor : ∀ d ∈ docs, ∀ x ∈ Anchor.check cx d, motive (.anchor []) x)
    (link : ∀ d ∈ docs, ∀ x ∈ Link.check cx d, motive (.link []) x)
    (missingSource : ∀ x ∈ MissingSource.check cx, motive .missingSource x)
    (title : ∀ d ∈ docs, ∀ x ∈ Title.check cx d, motive (.title []) x)
    (contentsCoverage : ∀ x ∈ ContentsCoverage.check cx, motive .contentsCoverage x)
    (orphan : ∀ linked, ∀ x ∈ Orphan.check cx linked, motive (.orphan [Orphan.rootFile]) x)
    {c : Checker} (hc : c ∈ all) {x : Diagnostic} (hx : x ∈ c.report cx docs) : motive c x := by
  simp only [all, fileRules, List.cons_append, List.nil_append, List.mem_cons,
    List.not_mem_nil, or_false] at hc
  rcases hc with rfl | rfl | rfl | rfl | rfl | rfl
  · rw [report_anchor] at hx
    obtain ⟨d, hd, hx⟩ := List.mem_flatMap.mp hx
    exact anchor d hd x hx
  · rw [report_link] at hx
    obtain ⟨d, hd, hx⟩ := List.mem_flatMap.mp hx
    exact link d hd x hx
  · rw [report_missingSource] at hx
    exact missingSource x hx
  · rw [report_title] at hx
    obtain ⟨d, hd, hx⟩ := List.mem_flatMap.mp hx
    exact title d hd x hx
  · rw [report_contentsCoverage] at hx
    exact contentsCoverage x hx
  · rw [report_orphan] at hx
    exact orphan _ x hx

/-- Findings carry the name of the rule that reports them. -/
theorem rule_of_mem_report {c : Checker} (hc : c ∈ all) {x : Diagnostic}
    (hx : x ∈ c.report cx docs) : x.rule = c.name := by
  refine report_cases ?anchor ?link ?missingSource ?title ?contentsCoverage ?orphan hc hx
  case anchor =>
    intro d _ x hx
    rcases List.mem_append.mp hx with hx | hx
    · obtain ⟨f, -, rfl⟩ := List.mem_map.mp hx
      rfl
    · obtain ⟨t, -, rfl⟩ := List.mem_map.mp hx
      rfl
  case link =>
    intro d _ x hx
    obtain ⟨s, -, hx⟩ := List.mem_filterMap.mp hx
    obtain ⟨f, -, rfl⟩ := Option.map_eq_some_iff.mp hx
    rfl
  case missingSource =>
    intro x hx
    rcases List.mem_append.mp hx with hx | hx
    · obtain ⟨f, -, rfl⟩ := List.mem_map.mp hx
      rfl
    · obtain ⟨f, -, rfl⟩ := List.mem_map.mp hx
      rfl
  case title =>
    intro d _ x hx
    obtain ⟨f, -, rfl⟩ := Option.map_eq_some_iff.mp (Option.mem_toList.mp hx)
    rfl
  case contentsCoverage =>
    intro x hx
    obtain ⟨f, -, rfl⟩ := List.mem_map.mp hx
    rfl
  case orphan =>
    intro linked x hx
    obtain ⟨f, -, rfl⟩ := List.mem_map.mp hx
    rfl

end Checker

theorem foldl_map_scan (cx : Context) (docs : List Document) (rules : List Checker) :
    docs.foldl (fun cs d => cs.map (·.scan cx d)) rules = rules.map (·.scanAll cx docs) := by
  induction docs generalizing rules with
  | nil => simp [Checker.scanAll]
  | cons d docs ih =>
    rw [List.foldl_cons, ih, List.map_map]
    rfl

/-- Rules do not look at each other. -/
theorem reports_eq_flatMap_report (cx : Context) (docs : List Document) (rules : List Checker) :
    reports cx docs rules = rules.flatMap (·.report cx docs) := by
  rw [reports, foldl_map_scan, List.flatMap_map]
  rfl

theorem Target.lint_value (t : Target) (catalog : Catalog) (source : Source) (scanner : Scanner) :
    (t.lint catalog source scanner).value =
      ((Checker.forScope t.scope).flatMap
        (·.report ⟨t.index, catalog, source⟩ (t.documents source scanner).value),
        (t.documents source scanner).value.length) := by
  rw [lint, Logged.bind_value, Logged.pure_value, reports_eq_flatMap_report]

/-- A run notes what reading the documents notes. -/
theorem Target.lint_events (t : Target) (catalog : Catalog) (source : Source)
    (scanner : Scanner) :
    (t.lint catalog source scanner).events = (t.documents source scanner).events := by
  rw [lint, Logged.bind_events, Logged.pure_events, List.append_nil]

namespace Checker

theorem forScope_subset_all (scope : Scope) : ∀ c ∈ forScope scope, c ∈ all := by
  cases scope with
  | single => exact fun c hc => List.mem_append_left _ hc
  | package => exact fun c hc => hc

theorem names_forScope_nodup (scope : Scope) : ((forScope scope).map name).Nodup := by
  cases scope <;> decide

variable {cx : Context} {docs : List Document} {c : Checker}

theorem filter_report_self (hc : c ∈ all) :
    (c.report cx docs).filter (·.rule = c.name) = c.report cx docs :=
  List.filter_eq_self.mpr fun _ hx => decide_eq_true (rule_of_mem_report hc hx)

theorem filter_report_of_ne {rule : String} (hc : c ∈ all) (hne : c.name ≠ rule) :
    (c.report cx docs).filter (·.rule = rule) = [] := by
  refine List.filter_eq_nil_iff.mpr fun x hx => ?_
  rw [rule_of_mem_report hc hx, decide_eq_true_eq]
  exact hne

/-- Under a rule's name stands what that rule reports and nothing else. -/
theorem filter_flatMap_report {rules : List Checker} (hall : ∀ c ∈ rules, c ∈ all)
    (hn : (rules.map name).Nodup) (hc : c ∈ rules) :
    (rules.flatMap (·.report cx docs)).filter (·.rule = c.name) = c.report cx docs := by
  induction rules with
  | nil => simp at hc
  | cons r rules ih =>
    obtain ⟨hr, hrules⟩ := List.nodup_cons.mp hn
    rw [List.flatMap_cons, List.filter_append]
    rcases List.mem_cons.mp hc with rfl | hc
    · have hrest : (rules.flatMap (·.report cx docs)).filter (·.rule = c.name) = [] := by
        rw [List.filter_flatMap, List.flatMap_eq_nil_iff]
        intro r hrm
        exact filter_report_of_ne (hall r (List.mem_cons_of_mem _ hrm))
          fun heq => hr (List.mem_map.mpr ⟨r, hrm, heq⟩)
      rw [filter_report_self (hall c List.mem_cons_self), hrest, List.append_nil]
    · have hne : r.name ≠ c.name := fun heq => hr (List.mem_map.mpr ⟨c, hc, heq.symm⟩)
      rw [filter_report_of_ne (hall r List.mem_cons_self) hne, List.nil_append]
      exact ih (fun r hr => hall r (List.mem_cons_of_mem _ hr)) hrules hc

end Checker

/-- The findings of one rule in a run. -/
def Target.findings (t : Target) (catalog : Catalog) (source : Source) (scanner : Scanner)
    (rule : String) : List Diagnostic :=
  (t.lint catalog source scanner).value.1.filter (·.rule = rule)

theorem Target.findings_eq_report (t : Target) (catalog : Catalog) (source : Source)
    (scanner : Scanner) {c : Checker} (hc : c ∈ Checker.forScope t.scope) :
    t.findings catalog source scanner c.name =
      c.report ⟨t.index, catalog, source⟩ (t.documents source scanner).value := by
  rw [findings, lint_value]
  exact Checker.filter_flatMap_report (Checker.forScope_subset_all t.scope)
    (Checker.names_forScope_nodup t.scope) hc

end HelpAudit
