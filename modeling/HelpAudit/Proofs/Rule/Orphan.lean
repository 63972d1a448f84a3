import HelpAudit.Proofs.Index.Draft
import HelpAudit.Proofs.Lint.Reports
import HelpAudit.Proofs.Rule.Link
import HelpAudit.Source.Memory

/-!
Which files are orphans. A file of the package is none when it is the first page, or when a document
of another file links to a topic that lives in it. So the verdict hangs on which documents were
scanned and not on their order, and links into other packages have no part in it.
-/
namespace HelpAudit.Orphan

open Markup (LinkBody Span)

/-- The qualifier of a link leaves it in the present package: there is none, it is the package's own
name, or it is a declared file and no loaded package. -/
def StaysHome (cx : Context) : Option String → Prop
  | none => True
  | some name =>
    name = cx.index.package ∨ cx.catalog.find? name = none ∧ cx.index.hasFile name = true

/-- The link stays in the package and has a topic, which lives in the file. -/
def LeadsHome (cx : Context) (body file : String) : Prop :=
  StaysHome cx (LinkBody.parse body).package ∧
    ((LinkBody.parse body).topic.bind cx.index.lookup).map (·.file) = some file

/-- A file, other than the first page, to which no document of another file has a link. -/
def IsOrphan (cx : Context) (docs : List Document) (file : String) : Prop :=
  file ≠ rootFile ∧ ∀ d ∈ docs, d.file ≠ file → ∀ s ∈ d.links, ¬LeadsHome cx s.body file

instance (cx : Context) (qualifier : Option String) : Decidable (StaysHome cx qualifier) := by
  unfold StaysHome
  split <;> infer_instance

instance (cx : Context) (body file : String) : Decidable (LeadsHome cx body file) :=
  inferInstanceAs (Decidable (_ ∧ _))

instance (cx : Context) (docs : List Document) (file : String) :
    Decidable (IsOrphan cx docs file) :=
  inferInstanceAs (Decidable (_ ∧ _))

/-- A document without its links that leave the package. -/
def withHomeLinks (cx : Context) (d : Document) : Document :=
  { d with links := d.links.filter fun s => StaysHome cx (LinkBody.parse s.body).package }

variable {cx : Context} {docs : List Document} {d : Document} {file target body : String}

theorem staysHome_iff {qualifier : Option String} : StaysHome cx qualifier ↔
    cx.resolve qualifier = .own ∨ ∃ name, cx.resolve qualifier = .file name := by
  cases qualifier with
  | none => simp [StaysHome, Context.resolve]
  | some name =>
    by_cases hown : name = cx.index.package
    · simp [StaysHome, Context.resolve, hown]
    · cases hfind : cx.catalog.find? name with
      | some ix => simp [StaysHome, Context.resolve, hown, hfind]
      | none =>
        cases hfile : cx.index.hasFile name <;>
          simp [StaysHome, Context.resolve, hown, hfind, hfile]

theorem leadsHome_iff : LeadsHome cx body file ↔ LeadsTo cx body file := by
  simp only [LeadsHome, LeadsTo, staysHome_iff, Option.map_eq_some_iff, Option.bind_eq_some_iff]
  constructor
  · rintro ⟨hhome, t, ⟨topic, htopic, ht⟩, hfile⟩
    exact ⟨topic, t, htopic, hhome, ht, hfile⟩
  · rintro ⟨topic, t, htopic, hhome, ht, hfile⟩
    exact ⟨hhome, t, ⟨topic, htopic, ht⟩, hfile⟩

/-- A scan of the documents leaves the orphans out of what is linked. -/
theorem isOrphan_iff_not_mem : IsOrphan cx docs file ↔
    file ∉ [rootFile] ++ docs.flatMap (linkedFiles cx) := by
  simp only [IsOrphan, leadsHome_iff, List.mem_append, List.mem_singleton, List.mem_flatMap,
    mem_linkedFiles_iff, not_or, not_exists, not_and, ne_comm]

theorem message_injective : Function.Injective message := by
  intro a b h
  simpa [message] using h

/-- The rule warns of the orphans among the declared files. -/
theorem report_eq (cx : Context) (docs : List Document) :
    (Checker.orphan [rootFile]).report cx docs =
      (cx.index.files.filter fun f => IsOrphan cx docs f.path).map
        fun f => cx.indexIssue .warning ruleName (message f.path) := by
  rw [Checker.report_orphan, check]
  congr 1
  apply List.filter_congr
  intro f _
  rw [Bool.eq_iff_iff, decide_eq_true_iff, isOrphan_iff_not_mem]
  simp

theorem linkedFiles_withHomeLinks : linkedFiles cx (withHomeLinks cx d) = linkedFiles cx d := by
  unfold linkedFiles
  change (d.links.filter _).filterMap (fun s => linkedFile? cx d.file s.body) = _
  rw [List.filterMap_filter]
  apply List.filterMap_congr
  intro s _
  split
  · rfl
  · next hleaves =>
    refine (Option.eq_none_iff_forall_ne_some.mpr fun target h => hleaves ?_).symm
    exact decide_eq_true (leadsHome_iff.mpr (linkedFile?_eq_some_iff.mp h).2).1

theorem isOrphan_congr {docs' : List Document} (h : ∀ d, d ∈ docs' ↔ d ∈ docs) :
    IsOrphan cx docs' file ↔ IsOrphan cx docs file := by
  simp only [IsOrphan, h]

theorem nodup_warnings (h : (cx.index.files.map (·.path)).Nodup) (p : HelpFile → Bool) :
    ((cx.index.files.filter p).map
      fun f => cx.indexIssue .warning ruleName (message f.path)).Nodup := by
  have hinjective : Function.Injective fun path =>
      cx.indexIssue .warning ruleName (message path) := by
    intro a b hab
    exact message_injective (congrArg Diagnostic.message hab)
  have hpaths : ((cx.index.files.filter p).map (·.path)).Nodup :=
    (List.filter_sublist.map _).nodup h
  simpa [Function.comp_def] using hpaths.map hinjective

/-- The rule warns of each orphan among the declared files once, in the order of the files. It
reports the same when the documents come in another order or again, and when the links that leave
the package are dropped. -/
theorem reports_each_orphan_once (cx : Context) (hix : cx.index.IsBuilt) (docs : List Document) :
    let report := (Checker.orphan [rootFile]).report cx
    report docs = (cx.index.files.filter fun f => IsOrphan cx docs f.path).map
        (fun f => cx.indexIssue .warning ruleName (message f.path)) ∧
      (report docs).Nodup ∧
      (∀ docs' : List Document, (∀ d, d ∈ docs' ↔ d ∈ docs) → report docs' = report docs) ∧
      report (docs.map (withHomeLinks cx)) = report docs := by
  intro report
  refine ⟨report_eq cx docs, ?once, ?order, ?home⟩
  case once =>
    change (Checker.report cx docs _).Nodup
    rw [report_eq]
    exact nodup_warnings hix.sound.paths_nodup _
  case order =>
    intro docs' h
    change Checker.report cx docs' _ = Checker.report cx docs _
    rw [report_eq, report_eq]
    simp only [isOrphan_congr h]
  case home =>
    change Checker.report cx _ _ = Checker.report cx docs _
    rw [Checker.report_orphan, Checker.report_orphan, List.flatMap_map]
    simp only [linkedFiles_withHomeLinks]

/-- A package of four files, beside another package with a topic of the same name. -/
def besideOther : Context where
  index := ((Draft.start "Docs" "Docs/help").declareAll
    [.file "index.txt" "Index", .file "a.txt" "A", .file "b.txt" "B", .file "c.txt" "C",
      .topic ⟨"in_a", "a.txt", "In A", []⟩, .topic ⟨"in_b", "b.txt", "In B", ["bee"]⟩,
      .topic ⟨"in_c", "c.txt", "In C", []⟩]).build
  catalog := NameMap.empty.insert "Other" ((Draft.start "Other" "Other/help").declareAll
    [.file "index.txt" "Other", .topic ⟨"in_c", "index.txt", "In C", []⟩]).build
  source := (Memory.ofList []).source

/-- Links by an id and by an alias; to the own file, to the other package, to no package. -/
def threeScanned : List Document :=
  [.scan .help "index.txt" "|in_a|", .scan .help "a.txt" "|a.txt| |Other:in_c:C| |None:in_c:C|",
    .scan .help "c.txt" "|in_c| |index.txt:bee:B|"]

theorem threeScanned_report : besideOther.index.IsBuilt ∧
    (∀ d, d ∈ threeScanned.reverse ++ threeScanned ↔ d ∈ threeScanned) ∧
    (Checker.orphan [rootFile]).report besideOther (threeScanned.reverse ++ threeScanned) =
      [besideOther.indexIssue .warning ruleName (message "c.txt")] := by
  have hix : besideOther.index.IsBuilt := ⟨_, _, _, rfl⟩
  have hsame : ∀ d, d ∈ threeScanned.reverse ++ threeScanned ↔ d ∈ threeScanned := by simp
  obtain ⟨hreport, -, horder, -⟩ := reports_each_orphan_once besideOther hix threeScanned
  exact ⟨hix, hsame, (horder _ hsame).trans (hreport.trans (by decide +kernel))⟩

end HelpAudit.Orphan
