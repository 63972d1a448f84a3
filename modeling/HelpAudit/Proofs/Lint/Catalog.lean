import HelpAudit.Proofs.Lint.Reports
import HelpAudit.Proofs.Store.Reload

/-! What a run asks of the catalog: the packages that links name, its own apart. Two catalogs that
answer these alike give the same run. -/
namespace HelpAudit

open Markup (LinkBody)

/-- The names that the links of a document give to packages. -/
def Document.packageNames (d : Document) : List String :=
  d.links.filterMap fun s => (LinkBody.parse s.body).package

section Agree

variable {ix : Index} {source : Source} {catalog catalog' : Catalog} {body : String}

/-- A name is looked up in the catalog when it is not the package's own. -/
theorem Context.resolve_eq {package : Option String}
    (h : ∀ name ∈ package, name ≠ ix.package → catalog.find? name = catalog'.find? name) :
    resolve ⟨ix, catalog, source⟩ package = resolve ⟨ix, catalog', source⟩ package := by
  cases package with
  | none => rfl
  | some name =>
    by_cases hown : name = ix.package
    · simp [resolve, hown]
    · simp only [resolve, h name rfl hown]

/-- The judgement on a link looks at what its package part stands for, not at the catalog. -/
theorem Link.fault?_eq
    (h : Context.resolve ⟨ix, catalog, source⟩ (LinkBody.parse body).package =
      Context.resolve ⟨ix, catalog', source⟩ (LinkBody.parse body).package) :
    fault? ⟨ix, catalog, source⟩ body = fault? ⟨ix, catalog', source⟩ body := by
  unfold fault?
  dsimp only
  rw [h]
  rfl

theorem Orphan.linkedFile?_eq {file : String}
    (h : Context.resolve ⟨ix, catalog, source⟩ (LinkBody.parse body).package =
      Context.resolve ⟨ix, catalog', source⟩ (LinkBody.parse body).package) :
    linkedFile? ⟨ix, catalog, source⟩ file body =
      linkedFile? ⟨ix, catalog', source⟩ file body := by
  unfold linkedFile?
  dsimp only
  rw [h]

/-- The catalogs answer alike for each package that a link of the documents names. -/
def Agree (ix : Index) (docs : List Document) (catalog catalog' : Catalog) : Prop :=
  ∀ d ∈ docs, ∀ name ∈ d.packageNames, name ≠ ix.package →
    catalog.find? name = catalog'.find? name

variable {docs : List Document} {d : Document} (h : Agree ix docs catalog catalog')
include h

theorem Agree.resolve (hd : d ∈ docs) {s : Markup.Span} (hs : s ∈ d.links) :
    Context.resolve ⟨ix, catalog, source⟩ (LinkBody.parse s.body).package =
      Context.resolve ⟨ix, catalog', source⟩ (LinkBody.parse s.body).package := by
  apply Context.resolve_eq
  intro name hname
  exact h d hd name (List.mem_filterMap.mpr ⟨s, hs, hname⟩)

theorem Agree.link_check (hd : d ∈ docs) :
    Link.check ⟨ix, catalog, source⟩ d = Link.check ⟨ix, catalog', source⟩ d := by
  apply List.filterMap_congr
  intro s hs
  rw [Link.fault?_eq (h.resolve hd hs)]

theorem Agree.linkedFiles (hd : d ∈ docs) :
    Orphan.linkedFiles ⟨ix, catalog, source⟩ d = Orphan.linkedFiles ⟨ix, catalog', source⟩ d := by
  apply List.filterMap_congr
  intro s hs
  exact Orphan.linkedFile?_eq (h.resolve hd hs)

/-- No rule tells catalogs apart that agree on the documents. -/
theorem Agree.report {c : Checker} (hc : c ∈ Checker.all) :
    c.report ⟨ix, catalog, source⟩ docs = c.report ⟨ix, catalog', source⟩ docs :=
  Checker.report_congr docs (fun _ => h.link_check) (fun _ => h.linkedFiles) rfl hc

end Agree

namespace Target

variable (t : Target) (source : Source) (scanner : Scanner)

/-- The packages, other than its own, that the links of a target's documents name. -/
def foreignNames : List String :=
  ((t.documents source scanner).value.flatMap Document.packageNames).filter (· ≠ t.index.package)

theorem agree_of_foreignNames {catalog catalog' : Catalog}
    (h : ∀ name ∈ t.foreignNames source scanner, catalog.find? name = catalog'.find? name) :
    Agree t.index (t.documents source scanner).value catalog catalog' := by
  intro d hd name hname hne
  apply h
  exact List.mem_filter.mpr ⟨List.mem_flatMap.mpr ⟨d, hd, hname⟩, by simpa using hne⟩

/-- A run is the same with two catalogs that answer alike for the foreign packages that its links
name; so a package that no link names may be loaded, dropped or loaded again. -/
theorem lint_eq_of_foreignNames :
    (∀ catalog catalog' : Catalog,
      (∀ name ∈ t.foreignNames source scanner, catalog.find? name = catalog'.find? name) →
      t.lint catalog source scanner = t.lint catalog' source scanner) ∧
    ∀ name ∉ t.foreignNames source scanner,
      (∀ (catalog : Catalog) (ix : Index),
        t.lint (catalog.insert name ix) source scanner = t.lint catalog source scanner) ∧
      (∀ catalog : Catalog,
        t.lint (catalog.erase name) source scanner = t.lint catalog source scanner) ∧
      ∀ (st st' : Store) (held : Source) (fresh : Index),
        (st.reload held name).value = .ok (fresh, st') →
        fresh.package ∉ t.foreignNames source scanner →
        t.lint st'.catalog source scanner = t.lint st.catalog source scanner := by
  have hagree : ∀ catalog catalog' : Catalog,
      (∀ name ∈ t.foreignNames source scanner, catalog.find? name = catalog'.find? name) →
      t.lint catalog source scanner = t.lint catalog' source scanner := by
    intro catalog catalog' h
    apply Logged.ext_value_events
    · rw [lint_value, lint_value]
      congr 1
      exact List.flatMap_congr fun c hc =>
        (t.agree_of_foreignNames source scanner h).report (Checker.forScope_subset_all _ c hc)
    · rw [lint_events, lint_events]
  refine ⟨hagree, fun name hname => ?_⟩
  have hne : ∀ other ∈ t.foreignNames source scanner, other ≠ name :=
    fun other hother heq => hname (heq ▸ hother)
  refine ⟨fun catalog ix => hagree _ _ ?_, fun catalog => hagree _ _ ?_, ?_⟩
  · intro other hother
    rw [NameMap.find?_insert, if_neg (hne other hother)]
  · intro other hother
    rw [NameMap.find?_erase, if_neg (hne other hother)]
  · intro st st' held fresh hreload hfresh
    apply hagree
    intro other hother
    have hnew : other ≠ fresh.package := fun heq => hfresh (heq ▸ hother)
    rw [Store.find?_reload hreload, if_neg hnew, if_neg (hne other hother)]

/-- A page that links to package B, to a topic by its file, and to one by its own package. -/
def crossLinked : Target :=
  .wholePackage ((Draft.start "Docs" "Docs/help").declareAll
    [.file "index.txt" "Index", .topic ⟨"sec", "index.txt", "Section", []⟩]).build

def crossLinks : Source :=
  (Memory.ofList
    [("Docs/help/index.txt", "|B:t:There| |index.txt:sec:Here| |Docs:sec:Here| |A|")]).source

/-- The page does not care that package A comes back under another name. -/
theorem crossLinked_lint_eq : crossLinked.foreignNames crossLinks .help = ["B", "index.txt"] ∧
    ∃ fresh st', (Store.twoLoaded.reload (Store.twoPackages "C") "A").value = .ok (fresh, st') ∧
      fresh.package = "C" ∧
      crossLinked.lint st'.catalog crossLinks .help =
        crossLinked.lint Store.twoLoaded.catalog crossLinks .help ∧
      crossLinked.lint (Store.twoLoaded.catalog.insert "Docs" fresh) crossLinks .help =
        crossLinked.lint Store.twoLoaded.catalog crossLinks .help := by
  have hnames : crossLinked.foreignNames crossLinks .help = ["B", "index.txt"] := by
    decide +kernel
  have hpackage : (Store.twoLoaded.reload (Store.twoPackages "C") "A").value.toOption.map
      (·.1.package) = some "C" := by decide +kernel
  obtain ⟨⟨fresh, st'⟩, hreload, hfresh⟩ := Option.map_eq_some_iff.mp hpackage
  have hvalue : (Store.twoLoaded.reload (Store.twoPackages "C") "A").value = .ok (fresh, st') := by
    cases h : (Store.twoLoaded.reload (Store.twoPackages "C") "A").value with
    | error e =>
      rw [h] at hreload
      cases hreload
    | ok r =>
      rw [h] at hreload
      cases hreload
      rfl
  obtain ⟨hagree, hunnamed⟩ := lint_eq_of_foreignNames crossLinked crossLinks .help
  rw [hnames] at hagree hunnamed
  refine ⟨hnames, fresh, st', hvalue, hfresh, ?_, hagree _ _ ?_⟩
  · exact (hunnamed "A" (by decide)).2.2 _ _ _ fresh hvalue (by rw [hfresh]; decide)
  · intro name hname
    have hne : name ≠ "Docs" := by
      rintro rfl
      exact absurd hname (by decide)
    simp [hne]

end Target
end HelpAudit
