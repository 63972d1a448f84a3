import HelpAudit.Proofs.Lint.Reports
import HelpAudit.Proofs.Markup.Position
import HelpAudit.Proofs.Rule.Anchor
import HelpAudit.Source.Memory

/-!
Where findings stand. A finding is about the index or about a file as a whole, and then it stands at
the start; or it stands where a span of markup opens in a document. The rules that judge markup
report of a document in the order of its spans, and of no span twice.
-/
namespace HelpAudit

open Markup (Span)

/-- A rule that judges one kind of markup, with the delimiter that opens its spans. -/
structure MarkupRule where
  name : String
  opening : Char
  spans : Document → List Span

namespace MarkupRule

def anchor : MarkupRule := ⟨Anchor.ruleName, '*', (·.anchors)⟩
def link : MarkupRule := ⟨Link.ruleName, '|', (·.links)⟩

end MarkupRule

namespace Diagnostic

/-- A finding of a rule where a span of the document opens. -/
structure AtSpan (r : MarkupRule) (d : Document) (x : Diagnostic) : Prop where
  rule : x.rule = r.name
  file : x.file = d.file
  span : ∃ s ∈ r.spans d, x.position = d.position s
  opening : x.position.charAt? d.text.toList = some r.opening

/-- The rules that report about the index. -/
def indexRules : List String :=
  [Anchor.ruleName, MissingSource.ruleName, ContentsCoverage.ruleName, Orphan.ruleName]

/-- A finding at the start, about the title of a document or about the index. -/
structure AtStart (ix : Index) (docs : List Document) (x : Diagnostic) : Prop where
  position : x.position = .start
  file : (x.rule = Title.ruleName ∧ ∃ d ∈ docs, x.file = d.file) ∨
    x.rule ∈ indexRules ∧ x.file = ix.indexFile

end Diagnostic

namespace MarkupRule

/-- Findings at spans of a document, for some of the spans and in their order. -/
structure Reports (r : MarkupRule) (d : Document) (found : List Diagnostic) : Prop where
  atSpan : ∀ x ∈ found, x.AtSpan r d
  ordered : found.Pairwise fun x y => x.position.Precedes y.position
  chosen : ∃ spans : List Span, spans.Sublist (r.spans d) ∧
    found.map (·.position) = spans.map d.position

/-- A report on a document: what is found at its spans, then what is found about the index. -/
def Judges (r : MarkupRule) (ix : Index) (docs : List Document) (d : Document)
    (report : List Diagnostic) : Prop :=
  ∃ found general, report = found ++ general ∧ r.Reports d found ∧
    ∀ x ∈ general, x.AtStart ix docs

/-- The spans of the rule open in the document, one behind the other. -/
structure Opens (r : MarkupRule) (d : Document) : Prop where
  ne_newline : r.opening ≠ '\n'
  opens : ∀ s ∈ r.spans d, s.Opens r.opening d.text
  ordered : (r.spans d).Pairwise fun a b => a.offset < b.offset

theorem opens_anchor (file text : String) : anchor.Opens (.scan .help file text) where
  ne_newline := by decide
  opens _ hs := Markup.opens_of_mem_anchors hs
  ordered := Markup.pairwise_offset_anchors text

theorem opens_link (file text : String) : link.Opens (.scan .help file text) where
  ne_newline := by decide
  opens _ hs := Markup.opens_of_mem_links hs
  ordered := Markup.pairwise_offset_links text

variable {r : MarkupRule} {d : Document} {Fault : Type} {faults : List (Span × Fault)}

/-- Of faults that some of the spans have, the rule reports each at its span. -/
theorem Opens.reports (h : r.Opens d) (hfaults : (faults.map (·.1)).Sublist (r.spans d))
    (severity : Fault → Severity) (message : Fault → String) :
    r.Reports d (faults.map fun f =>
      ⟨severity f.2, r.name, d.file, d.position f.1, message f.2⟩) where
  atSpan x hx := by
    obtain ⟨f, hf, rfl⟩ := List.mem_map.mp hx
    have hs : f.1 ∈ r.spans d := hfaults.subset (List.mem_map_of_mem hf)
    exact ⟨rfl, rfl, ⟨f.1, hs, rfl⟩, Span.charAt?_position (h.opens _ hs) h.ne_newline⟩
  ordered := by
    have hoffsets := List.pairwise_map.mp (h.ordered.sublist hfaults)
    refine List.pairwise_map.mpr (hoffsets.imp_of_mem fun {f g} hf hg hlt => ?_)
    have hs : f.1 ∈ r.spans d := hfaults.subset (List.mem_map_of_mem hf)
    have ht : g.1 ∈ r.spans d := hfaults.subset (List.mem_map_of_mem hg)
    exact Span.precedes_position (h.opens _ hs) (h.opens _ ht) hlt
  chosen := ⟨_, hfaults, by rw [List.map_map, List.map_map]; rfl⟩

end MarkupRule

/-- The faults of a document's links, each with its link. -/
def Link.faults (cx : Context) (d : Document) : List (Span × Fault) :=
  d.links.filterMap fun s => (fault? cx s.body).map (s, ·)

theorem Link.faults_sublist (cx : Context) (d : Document) :
    ((faults cx d).map (·.1)).Sublist d.links := by
  unfold faults
  generalize d.links = spans
  induction spans with
  | nil => exact List.nil_sublist _
  | cons s spans ih =>
    rw [List.filterMap_cons]
    cases fault? cx s.body with
    | none => exact ih.cons s
    | some f => exact ih.cons_cons s

section Place

variable {cx : Context} {docs : List Document} {d : Document} {x : Diagnostic}

theorem Context.atStart_indexIssue {rule : String} (h : rule ∈ Diagnostic.indexRules)
    (severity : Severity) (message : String) :
    (cx.indexIssue severity rule message).AtStart cx.index docs := ⟨rfl, .inr ⟨h, rfl⟩⟩

theorem Anchor.judges_check (cx : Context) (docs : List Document) (file text : String) :
    MarkupRule.anchor.Judges cx.index docs (.scan .help file text)
      (check cx (.scan .help file text)) := by
  refine ⟨_, _, rfl, (MarkupRule.opens_anchor file text).reports (faults_sublist ..) _ _, ?_⟩
  intro x hx
  obtain ⟨t, -, rfl⟩ := List.mem_map.mp hx
  exact Context.atStart_indexIssue (by decide) _ _

theorem Link.reports_check (cx : Context) (file text : String) :
    MarkupRule.link.Reports (.scan .help file text) (check cx (.scan .help file text)) := by
  have hcheck : check cx (.scan .help file text) = (faults cx (.scan .help file text)).map
      fun f => ⟨f.2.severity, MarkupRule.link.name, file,
        (Document.scan .help file text).position f.1, f.2.message⟩ := by
    rw [check, faults, List.map_filterMap]
    simp only [Option.map_map]
    rfl
  rw [hcheck]
  exact (MarkupRule.opens_link file text).reports (faults_sublist ..) _ _

theorem Link.judges_check (cx : Context) (docs : List Document) (file text : String) :
    MarkupRule.link.Judges cx.index docs (.scan .help file text)
      (check cx (.scan .help file text)) :=
  ⟨_, [], (List.append_nil _).symm, reports_check cx file text, by simp⟩

theorem Title.atStart_of_mem_check (hd : d ∈ docs) (hx : x ∈ check cx d) :
    x.AtStart cx.index docs := by
  obtain ⟨f, -, rfl⟩ := Option.map_eq_some_iff.mp (Option.mem_toList.mp hx)
  exact ⟨rfl, .inl ⟨rfl, d, hd, rfl⟩⟩

theorem MissingSource.atStart_of_mem_check (hx : x ∈ check cx) : x.AtStart cx.index docs := by
  rcases List.mem_append.mp hx with hx | hx
  · obtain ⟨f, -, rfl⟩ := List.mem_map.mp hx
    exact Context.atStart_indexIssue (by decide) _ _
  · obtain ⟨f, -, rfl⟩ := List.mem_map.mp hx
    exact Context.atStart_indexIssue (by decide) _ _

theorem ContentsCoverage.atStart_of_mem_check (hx : x ∈ check cx) :
    x.AtStart cx.index docs := by
  obtain ⟨f, -, rfl⟩ := List.mem_map.mp hx
  exact Context.atStart_indexIssue (by decide) _ _

theorem Orphan.atStart_of_mem_check {linked : List String} (hx : x ∈ check cx linked) :
    x.AtStart cx.index docs := by
  obtain ⟨f, -, rfl⟩ := List.mem_map.mp hx
  exact Context.atStart_indexIssue (by decide) _ _

theorem MarkupRule.Judges.place {r : MarkupRule} {ix : Index} {report : List Diagnostic}
    (h : r.Judges ix docs d report) (hx : x ∈ report) : x.AtStart ix docs ∨ x.AtSpan r d := by
  obtain ⟨found, general, rfl, hfound, hgeneral⟩ := h
  rcases List.mem_append.mp hx with hx | hx
  · exact .inr (hfound.atSpan x hx)
  · exact .inl (hgeneral x hx)

/-- Every rule reports at the start or where a span opens. -/
theorem Checker.place_of_mem_report (hdocs : ∀ d ∈ docs, ∃ file text, .scan .help file text = d)
    {c : Checker} (hc : c ∈ all) (hx : x ∈ c.report cx docs) :
    x.AtStart cx.index docs ∨ ∃ r ∈ [MarkupRule.anchor, MarkupRule.link], ∃ d ∈ docs,
      x.AtSpan r d := by
  refine report_cases ?anchor ?link ?missingSource ?title ?contentsCoverage ?orphan hc hx
  case anchor =>
    intro d hd x hx
    obtain ⟨file, text, rfl⟩ := hdocs d hd
    exact ((Anchor.judges_check cx docs file text).place hx).imp_right
      fun hspan => ⟨.anchor, by simp, _, hd, hspan⟩
  case link =>
    intro d hd x hx
    obtain ⟨file, text, rfl⟩ := hdocs d hd
    exact ((Link.judges_check cx docs file text).place hx).imp_right
      fun hspan => ⟨.link, by simp, _, hd, hspan⟩
  case missingSource => exact fun x hx => .inl (MissingSource.atStart_of_mem_check hx)
  case title => exact fun d hd x hx => .inl (Title.atStart_of_mem_check hd hx)
  case contentsCoverage => exact fun x hx => .inl (ContentsCoverage.atStart_of_mem_check hx)
  case orphan => exact fun linked x hx => .inl (Orphan.atStart_of_mem_check hx)

end Place

namespace Target

theorem exists_scan_of_mem_documents {t : Target} {source : Source} {d : Document}
    (hd : d ∈ (t.documents source .help).value) : ∃ file text, .scan .help file text = d := by
  obtain ⟨file, -, text, -, hscan⟩ := mem_documents.mp hd
  exact ⟨file, text, hscan⟩

/-- A rule that judges every document reports what it finds in one document after the other. -/
theorem exists_findings_eq (t : Target) (catalog : Catalog) (source : Source) {r : MarkupRule}
    {c : Checker} {check : Context → Document → List Diagnostic}
    (hc : c ∈ Checker.forScope t.scope)
    (hreport : ∀ cx docs, c.report cx docs = docs.flatMap (check cx))
    (hjudges : ∀ cx docs file text, r.Judges cx.index docs (.scan .help file text)
      (check cx (.scan .help file text))) :
    ∃ report, t.findings catalog source .help c.name =
        (t.documents source .help).value.flatMap report ∧
      ∀ d ∈ (t.documents source .help).value,
        r.Judges t.index (t.documents source .help).value d (report d) := by
  refine ⟨check ⟨t.index, catalog, source⟩, ?_, fun d hd => ?_⟩
  · rw [findings_eq_report t catalog source .help hc, hreport]
  · obtain ⟨file, text, rfl⟩ := exists_scan_of_mem_documents hd
    exact hjudges _ _ file text

/-- The documents of a run are files of the target with their texts. Each finding stands at the
start, about the title of a document or about the index, or at the delimiter that opens a span of a
document. At the spans of a document each markup rule reports in ascending order, once at most. -/
theorem places_lint (t : Target) (catalog : Catalog) (source : Source) :
    (∀ d ∈ (t.documents source .help).value, ∃ file ∈ t.files, ∃ text,
      source.content (t.index.resource file) = some text ∧ .scan .help file text = d) ∧
    (∀ x ∈ (t.lint catalog source .help).value.1,
      x.AtStart t.index (t.documents source .help).value ∨
        ∃ r ∈ [MarkupRule.anchor, MarkupRule.link], ∃ d ∈ (t.documents source .help).value,
          x.AtSpan r d) ∧
    ∀ r ∈ [MarkupRule.anchor, MarkupRule.link], ∃ report,
      t.findings catalog source .help r.name = (t.documents source .help).value.flatMap report ∧
        ∀ d ∈ (t.documents source .help).value,
          r.Judges t.index (t.documents source .help).value d (report d) := by
  refine ⟨fun d hd => mem_documents.mp hd, fun x hx => ?_, fun r hr => ?_⟩
  · rw [lint_value] at hx
    obtain ⟨c, hc, hx⟩ := List.mem_flatMap.mp hx
    exact Checker.place_of_mem_report (fun d hd => exists_scan_of_mem_documents hd)
      (Checker.forScope_subset_all t.scope c hc) hx
  · have hmem : ∀ c ∈ Checker.fileRules, c ∈ Checker.forScope t.scope := by
      cases t.scope with
      | single => exact fun c hc => hc
      | package => exact fun c hc => List.mem_append_left _ hc
    simp only [List.mem_cons, List.not_mem_nil, or_false] at hr
    rcases hr with rfl | rfl
    · exact t.exists_findings_eq catalog source (hmem (.anchor []) List.mem_cons_self)
        Checker.report_anchor Anchor.judges_check
    · exact t.exists_findings_eq catalog source
        (hmem (.link []) (List.mem_cons_of_mem _ List.mem_cons_self))
        Checker.report_link Link.judges_check

/-- Columns count characters, and neither a carriage return nor the end of a text moves them. -/
example :
    ((singleFile ((Draft.start "Docs" "help").declareAll [.topic ⟨"z", "a.txt", "Z", []⟩]).build
      "a.txt").findings .empty
        (Memory.ofList [("help/a.txt", "é*x*\r\n日本*y* *z* |*t*|")]).source .help
        Anchor.ruleName).map (fun x => (x.file, x.position)) =
        [("a.txt", ⟨1, 2⟩), ("a.txt", ⟨2, 3⟩), ("a.txt", ⟨2, 12⟩)] := by
  decide +kernel

end Target

end HelpAudit
