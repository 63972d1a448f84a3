import HelpAudit.Proofs.Lint.Reports
import HelpAudit.Proofs.Rule.Anchor
import HelpAudit.Proofs.Rule.Declared
import HelpAudit.Proofs.Rule.Link
import HelpAudit.Proofs.Source.Memory

/-! What it means that a whole package is linted without findings: its index, its texts and its
links agree. -/
namespace HelpAudit

/-- An index agrees with the texts of its files, which are the documents `docs`. -/
structure Index.Agrees (ix : Index) (catalog : Catalog) (source : Source) (scanner : Scanner)
    (docs : List Document) : Prop where
  /-- Each declared file has a text with a header of the declared title, and was scanned. -/
  scanned : ∀ f ∈ ix.files, ∃ text, source.content (ix.resource f.path) = some text ∧
    Document.scan scanner f.path text ∈ docs ∧
    ∃ header, Header.parse? (Document.scan scanner f.path text).firstLine = some header ∧
      header.title = f.title
  /-- Each file was scanned once, in order, and nothing else was. -/
  files : docs.map (·.file) = ix.files.map (·.path)
  /-- A topic of a file has one anchor there, unless it is the file's own. -/
  anchored : ∀ d ∈ docs, ∀ t ∈ ix.topics.values, t.file = d.file → t.id ≠ d.file →
    d.anchors.countP (Anchor.names ix t) = 1
  /-- An anchor names a topic of its file, unless it opts out. -/
  named : ∀ d ∈ docs, ∀ s ∈ d.anchors, Anchor.topicOf s ≠ Anchor.noTopic →
    ∃ t, ix.lookup (Anchor.topicOf s) = some t ∧ t.file = d.file
  /-- A link leads to a topic whose file is there. -/
  led : ∀ d ∈ docs, ∀ s ∈ d.links, Link.Leads ⟨ix, catalog, source⟩ s.body
  /-- A root of the table of contents leads to each file. -/
  listed : ∀ f ∈ ix.files, ∃ id node, Contents.Reaches ix.contents id ∧
    ix.contents.nodes[id]? = some node ∧ node.file = f.path
  /-- A link of another file leads to each file but the first page. -/
  linked : ∀ f ∈ ix.files, f.path ≠ Orphan.rootFile → ∃ d ∈ docs, d.file ≠ f.path ∧
    ∃ s ∈ d.links, Orphan.LeadsTo ⟨ix, catalog, source⟩ s.body f.path

/-- All rules report in turn: on anchors, links, missing files, titles, contents and orphans. -/
theorem Checker.flatMap_report_all (cx : Context) (docs : List Document) :
    all.flatMap (·.report cx docs) =
      docs.flatMap (Anchor.check cx) ++ (docs.flatMap (Link.check cx) ++ (MissingSource.check cx ++
        (docs.flatMap (Title.check cx) ++ (ContentsCoverage.check cx ++
          Orphan.check cx (Orphan.rootFile :: docs.flatMap (Orphan.linkedFiles cx)))))) := by
  simp [all, fileRules]

namespace Target

variable {ix : Index} {catalog : Catalog} {source : Source} {scanner : Scanner}

/-- A declared file that is not missing can be read below the documentation folder. -/
theorem exists_content_of_mem_onDisk {files : List (String × String)} {file : String}
    (h : file ∈ MissingSource.onDisk ⟨ix, catalog, (Memory.ofList files).source⟩) :
    ∃ text, (Memory.ofList files).source.content (ix.resource file) = some text := by
  have hm : ix.docRoot ++ "/" ++ file ∈
      (Memory.ofList files).list ix.docRoot MissingSource.helpFileGlob :=
    MissingSource.mem_onDisk.mp h
  exact Memory.exists_content_of_mem_list hm (Resource.normalize_normalize _)

theorem documents_files (hall : ∀ f ∈ ix.files, ∃ text,
    source.content (ix.resource f.path) = some text) :
    ((wholePackage ix).documents source scanner).value.map (·.file) = ix.files.map (·.path) := by
  simp only [documents_value, wholePackage]
  generalize ix.files = fs at hall
  induction fs with
  | nil => rfl
  | cons f fs ih =>
    obtain ⟨text, ht⟩ := hall f List.mem_cons_self
    have hscan : (source.content (ix.resource f.path)).map (Document.scan scanner f.path) =
        some (.scan scanner f.path text) := by rw [ht, Option.map_some]
    simp only [List.map_cons, List.filterMap_cons, hscan]
    rw [ih fun g hg => hall g (List.mem_cons_of_mem _ hg)]
    rfl

theorem mem_documents_of_content {f : HelpFile} (hf : f ∈ ix.files) {text : String}
    (ht : source.content (ix.resource f.path) = some text) :
    Document.scan scanner f.path text ∈ ((wholePackage ix).documents source scanner).value :=
  mem_documents.mpr ⟨f.path, List.mem_map_of_mem hf, text, ht, rfl⟩

/-- A package that is linted without findings, with its texts in memory, agrees with them. -/
theorem agrees_of_lint_eq_nil (hix : ix.IsBuilt) {files : List (String × String)}
    (h : ((wholePackage ix).lint catalog (Memory.ofList files).source scanner).value.1 = []) :
    ix.Agrees catalog (Memory.ofList files).source scanner
      ((wholePackage ix).documents (Memory.ofList files).source scanner).value := by
  have hsound := hix.sound
  rw [lint_value] at h
  change Checker.all.flatMap _ = [] at h
  rw [Checker.flatMap_report_all] at h
  simp only [List.append_eq_nil_iff, List.flatMap_eq_nil_iff] at h
  obtain ⟨hanchor, hlink, hmissing, htitle, hcontents, horphan⟩ := h
  have hcontent : ∀ f ∈ ix.files, ∃ text,
      (Memory.ofList files).source.content (ix.resource f.path) = some text := fun f hf =>
    exists_content_of_mem_onDisk (MissingSource.mem_onDisk_of_check_eq_nil hmissing hf)
  constructor
  case scanned =>
    intro f hf
    obtain ⟨text, ht⟩ := hcontent f hf
    have hd : Document.scan scanner f.path text ∈
        ((wholePackage ix).documents (Memory.ofList files).source scanner).value :=
      mem_documents_of_content hf ht
    exact ⟨text, ht, hd, Title.exists_header_of_check_eq_nil (htitle _ hd)
      (Index.title?_of_mem hsound.paths_nodup hf)⟩
  case files => exact documents_files hcontent
  case anchored =>
    intro d hd t ht hf hne
    obtain ⟨name, hn⟩ := NameMap.mem_values_iff.mp ht
    have hmem : t ∈ ix.topicsOf d.file :=
      (Index.mem_topicsOf hsound).mpr ⟨(hsound.keyed hn).symm ▸ hn, hf⟩
    exact Anchor.countP_names_eq_one hsound (hanchor d hd) hmem hne
  case named =>
    intro d hd s hs hne
    exact Anchor.exists_topic_of_faults_eq_nil (Anchor.check_eq_nil_iff.mp (hanchor d hd)).1 hs hne
  case led =>
    intro d hd s hs
    exact Link.leads_of_check_eq_nil (hlink d hd) hs
  case listed =>
    intro f hf
    exact Contents.mem_reachedFiles_iff.mp
      (ContentsCoverage.mem_reachedFiles_of_check_eq_nil hcontents hf)
  case linked =>
    intro f hf hne
    rcases List.mem_cons.mp (Orphan.mem_of_check_eq_nil horphan hf) with heq | hm
    · exact absurd heq hne
    · obtain ⟨d, hd, hfd⟩ := List.mem_flatMap.mp hm
      obtain ⟨hdf, s, hs, hl⟩ := Orphan.mem_linkedFiles hfd
      exact ⟨d, hd, hdf.symm, s, hs, hl⟩

/-- Two pages, the second with an anchor by an alias and one that opts out. -/
def guide : Index :=
  ((Draft.start "Docs" "Docs/help").declareAll
    [.file "index.txt" "Index", .file "other.txt" "Other",
      .topic ⟨"sec1", "other.txt", "Section", ["first"]⟩,
      .entry none ⟨"index.txt", "index.txt", none, []⟩,
      .entry (some 0) ⟨"first", "other.txt", none, []⟩]).build

def guideTexts : List (String × String) :=
  [("Docs/help/index.txt", "%hyperhelp title=\"Index\" date=\"2024-01-01\"\n|other.txt:sec1:Go|"),
    ("Docs/help/other.txt", "%hyperhelp title=\"Other\" date=\"2024-01-01\"\n*first:One* *_none*")]

theorem guide_agrees :
    guide.IsBuilt ∧
      ((wholePackage guide).lint (NameMap.empty.insert "Docs" guide)
        (Memory.ofList guideTexts).source .help).value = ([], 2) ∧
      guide.Agrees (NameMap.empty.insert "Docs" guide) (Memory.ofList guideTexts).source .help
        ((wholePackage guide).documents (Memory.ofList guideTexts).source .help).value := by
  have hix : guide.IsBuilt := ⟨_, _, _, rfl⟩
  have hrun : ((wholePackage guide).lint (NameMap.empty.insert "Docs" guide)
      (Memory.ofList guideTexts).source .help).value = ([], 2) := by decide +kernel
  exact ⟨hix, hrun, agrees_of_lint_eq_nil hix (congrArg Prod.fst hrun)⟩

end Target

end HelpAudit
