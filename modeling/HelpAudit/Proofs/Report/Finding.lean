import HelpAudit.Proofs.Lint.Reports
import HelpAudit.Proofs.Markup.Body
import HelpAudit.Proofs.Markup.Candidate
import HelpAudit.Proofs.Report.Message
import HelpAudit.Proofs.Resource
import HelpAudit.Proofs.Rule.Anchor
import HelpAudit.Proofs.Rule.Declared

/-!
Findings of a run. Where no name of the packages and no path of the source holds a line feed, the
findings stand in the documents or in the index, and their messages fit on lines.
-/
namespace HelpAudit

/-- No name and no path that an index holds has a line feed. -/
structure Index.IsOneLine (ix : Index) : Prop where
  package : '\n' ∉ ix.package.toList
  docRoot : '\n' ∉ ix.docRoot.toList
  location : '\n' ∉ ix.location.toList
  files : ∀ f ∈ ix.files, '\n' ∉ f.path.toList
  topics : ∀ t ∈ ix.topics.values, '\n' ∉ t.id.toList ∧ '\n' ∉ t.file.toList

theorem Index.IsOneLine.indexFile {ix : Index} (h : ix.IsOneLine) :
    '\n' ∉ ix.indexFile.toList := by
  intro hm
  rcases Resource.mem_of_mem_relative hm with hc | hc | hc
  · exact absurd hc (by decide)
  · exact absurd hc (by decide)
  · exact h.location hc

theorem Index.mem_values_of_lookup {ix : Index} {name : String} {t : Topic}
    (h : ix.lookup name = some t) : t ∈ ix.topics.values := by
  rcases Option.or_eq_some_iff.mp h with h | ⟨-, h⟩
  · exact NameMap.mem_values_iff.mpr ⟨name, h⟩
  · exact List.mem_of_find?_eq_some h

/-- Nothing that rules show besides the texts of documents has a line feed: the index, the files of
the topics of other packages, and what is listed below the documentation folder. -/
structure Context.IsOneLine (cx : Context) : Prop where
  index : cx.index.IsOneLine
  foreign : ∀ ix ∈ cx.catalog.values, ∀ t ∈ ix.topics.values, '\n' ∉ t.file.toList
  listed : ∀ path ∈ (cx.source.list cx.index.docRoot MissingSource.helpFileGlob).value,
    '\n' ∉ path.toList

structure Document.IsOneLine (d : Document) : Prop where
  file : '\n' ∉ d.file.toList
  anchors : ∀ s ∈ d.anchors, '\n' ∉ s.body.toList
  links : ∀ s ∈ d.links, '\n' ∉ s.body.toList

/-- No markup of a text reaches over the end of a line. -/
theorem Document.isOneLine_scan {file : String} (h : '\n' ∉ file.toList) (text : String) :
    (Document.scan .help file text).IsOneLine :=
  ⟨h, fun _ hs => Markup.newline_not_mem_anchor hs, fun _ hs => Markup.newline_not_mem_link hs⟩

variable {cx : Context} {d : Document}

/-- An anchor's fault shows its topic, and perhaps the file of the topic that it names. -/
theorem Anchor.names_of_fault? {ix : Index} {file topic : String} {seen : List String} {f : Fault}
    (h : fault? ix file seen topic = some f) :
    f.names = [topic] ∨ ∃ t ∈ ix.topics.values, f.names = [topic, t.file] := by
  unfold fault? at h
  split at h
  · cases h
    exact .inl rfl
  split at h
  · cases h
    exact .inl rfl
  split at h
  · split at h
    · cases h
    · cases h
      exact .inl rfl
  split at h
  · cases h
    exact .inl rfl
  · next t ht =>
    split at h
    · cases h
      exact .inr ⟨t, Index.mem_values_of_lookup ht, rfl⟩
    split at h
    · cases h
      exact .inl rfl
    · cases h

namespace Context

/-- A qualifier stands for the package itself, a loaded one, or a name of neither. -/
theorem resolve_cases (cx : Context) (package : Option String) :
    cx.resolve package = .own ∨ (∃ ix ∈ cx.catalog.values, cx.resolve package = .foreign ix) ∨
      ∃ name, package = some name ∧
        (cx.resolve package = .file name ∨ cx.resolve package = .unknown name) := by
  cases package with
  | none => exact .inl rfl
  | some name =>
    unfold resolve
    dsimp only
    split
    · exact .inl rfl
    split
    · next ix hfound => exact .inr (.inl ⟨ix, NameMap.mem_values_iff.mpr ⟨name, hfound⟩, rfl⟩)
    · refine .inr (.inr ⟨name, rfl, ?_⟩)
      split
      · exact .inl rfl
      · exact .inr rfl

theorem eq_or_mem_of_indexOf? {package : Option String} {ix : Index}
    (h : cx.indexOf? (cx.resolve package) = some ix) :
    ix = cx.index ∨ ix ∈ cx.catalog.values := by
  rcases cx.resolve_cases package with hr | ⟨foreign, hmem, hr⟩ | ⟨name, -, hr | hr⟩ <;>
    rw [hr] at h
  · exact .inl (Option.some.inj h).symm
  · exact .inr (Option.some.inj h ▸ hmem)
  · exact .inl (Option.some.inj h).symm
  · cases h

theorem eq_some_of_resolve_file {package : Option String} {named : String}
    (h : cx.resolve package = .file named) : package = some named := by
  rcases cx.resolve_cases package with hr | ⟨foreign, -, hr⟩ | ⟨name, hname, hr | hr⟩ <;>
    rw [hr] at h
  · cases h
  · cases h
  · obtain rfl := PackageRef.file.inj h
    exact hname
  · cases h

theorem IsOneLine.topicFile (hcx : cx.IsOneLine) {ix : Index}
    (hix : ix = cx.index ∨ ix ∈ cx.catalog.values) {name : String} {t : Topic}
    (ht : ix.lookup name = some t) : '\n' ∉ t.file.toList := by
  have ht := Index.mem_values_of_lookup ht
  rcases hix with rfl | hix
  · exact (hcx.index.topics t ht).2
  · exact hcx.foreign ix hix t ht

end Context

namespace Link

open Markup (LinkBody)

theorem isTidy_of_topicFault? (hcx : cx.IsOneLine) {package : Option String} {ix : Index}
    {topic : String} {f : Fault} (hix : cx.indexOf? (cx.resolve package) = some ix)
    (hpackage : ∀ name, package = some name → '\n' ∉ name.toList) (htopic : '\n' ∉ topic.toList)
    (h : topicFault? cx (cx.resolve package) ix topic = some f) : IsTidy f.message := by
  unfold topicFault? at h
  split at h
  · cases h
    exact Fault.isTidy_message (by simpa [Fault.names] using htopic)
  next t ht =>
  have hfile := hcx.topicFile (Context.eq_or_mem_of_indexOf? hix) ht
  split at h
  · unfold fileFault? at h
    split at h
    · next named hr =>
      split at h
      · cases h
      cases h
      have hnamed := hpackage named (Context.eq_some_of_resolve_file hr)
      exact Fault.isTidy_message (by simp [Fault.names, hnamed, htopic, hfile])
    · cases h
  · cases h
    exact Fault.isTidy_message (by simpa [Fault.names] using hfile)

theorem isTidy_of_fault? (hcx : cx.IsOneLine) {body : String} (hbody : '\n' ∉ body.toList)
    {f : Fault} (h : fault? cx body = some f) : IsTidy f.message := by
  have hpackage : ∀ name, (LinkBody.parse body).package = some name → '\n' ∉ name.toList :=
    fun name hname hm => hbody (Markup.mem_of_mem_linkName (.inl hname) hm)
  have htopic : ∀ name, (LinkBody.parse body).topic = some name → '\n' ∉ name.toList :=
    fun name hname hm => hbody (Markup.mem_of_mem_linkName (.inr hname) hm)
  unfold fault? at h
  dsimp only at h
  split at h
  · cases h
    exact Fault.isTidy_message (by simpa [Fault.names] using hbody)
  next topic hname =>
  split at h
  · cases h
    exact Fault.isTidy_message (by simpa [Fault.names] using htopic topic hname)
  split at h
  · cases h
    refine Fault.isTidy_message fun name hm => ?_
    rw [Fault.names, List.mem_singleton] at hm
    rw [hm]
    cases hp : (LinkBody.parse body).package with
    | none => simp
    | some package => exact hpackage package hp
  · next ix hix => exact isTidy_of_topicFault? hcx hix hpackage (htopic topic hname) h

end Link

/-- A finding stands in a document or in the index, and its message fits on a line. -/
structure Diagnostic.Fits (cx : Context) (docs : List Document) (x : Diagnostic) : Prop where
  file : x.file = cx.index.indexFile ∨ ∃ d ∈ docs, x.file = d.file
  message : IsTidy x.message

section Fits

variable {docs : List Document} {x : Diagnostic} {message : String}

theorem Context.fits_indexIssue (h : IsTidy message) (severity : Severity) (rule : String) :
    (cx.indexIssue severity rule message).Fits cx docs := ⟨.inl rfl, h⟩

theorem Document.fits (hd : d ∈ docs) (h : IsTidy message) (severity : Severity) (rule : String)
    (position : Position) : Diagnostic.Fits cx docs ⟨severity, rule, d.file, position, message⟩ :=
  ⟨.inr ⟨d, hd, rfl⟩, h⟩

theorem Anchor.fits_of_mem_check (hcx : cx.IsOneLine) (hd : d ∈ docs) (hline : d.IsOneLine)
    (hx : x ∈ check cx d) : x.Fits cx docs := by
  rcases List.mem_append.mp hx with hx | hx
  · obtain ⟨⟨s, f⟩, hf, rfl⟩ := List.mem_map.mp hx
    obtain ⟨before, u, after, hspans, rfl, hfault⟩ := mem_faults.mp hf
    have hbody := hline.anchors u (by simp [hspans])
    have htopic : '\n' ∉ (topicOf u).toList := fun hm =>
      hbody (Markup.mem_of_mem_anchorTopic hm)
    refine Document.fits hd (Fault.isTidy_message fun name hname => ?_) _ _ _
    rcases names_of_fault? hfault with heq | ⟨t, ht, heq⟩
    · rw [heq, List.mem_singleton] at hname
      rwa [hname]
    · rw [heq, List.mem_cons, List.mem_singleton] at hname
      rcases hname with rfl | rfl
      · exact htopic
      · exact (hcx.index.topics t ht).2
  · obtain ⟨t, ht, rfl⟩ := List.mem_map.mp hx
    have htopic : t ∈ cx.index.topics.values :=
      (List.mem_filter.mp (List.mem_filter.mp ht).1).1
    exact Context.fits_indexIssue
      (isTidy_missingMessage (hcx.index.topics t htopic).1 hline.file) _ _

theorem Link.fits_of_mem_check (hcx : cx.IsOneLine) (hd : d ∈ docs) (hline : d.IsOneLine)
    (hx : x ∈ check cx d) : x.Fits cx docs := by
  obtain ⟨s, hs, hx⟩ := List.mem_filterMap.mp hx
  obtain ⟨f, hf, rfl⟩ := Option.map_eq_some_iff.mp hx
  exact Document.fits hd (isTidy_of_fault? hcx (hline.links s hs) hf) _ _ _

theorem Title.file_of_fault? {ix : Index} {f : Fault} (h : fault? ix d = some f) :
    f.file = d.file := by
  unfold fault? at h
  split at h
  · cases h
    rfl
  split at h
  · cases h
  split at h
  · cases h
  · cases h
    rfl

theorem Title.fits_of_mem_check (hd : d ∈ docs) (hline : d.IsOneLine) (hx : x ∈ check cx d) :
    x.Fits cx docs := by
  obtain ⟨f, hf, rfl⟩ := Option.map_eq_some_iff.mp (Option.mem_toList.mp hx)
  have hfile := hline.file
  rw [← file_of_fault? hf] at hfile
  exact Document.fits hd (Fault.isTidy_message hfile) _ _ _

theorem MissingSource.fits_of_mem_check (hcx : cx.IsOneLine) (hx : x ∈ check cx) :
    x.Fits cx docs := by
  have hroot := hcx.index.docRoot
  rcases List.mem_append.mp hx with hx | hx
  · obtain ⟨file, hfile, rfl⟩ := List.mem_map.mp hx
    have hlisted := hcx.listed _ (mem_onDisk.mp (List.mem_filter.mp hfile).1)
    have hname : '\n' ∉ file.toList := fun hm => hlisted (by simp [hm])
    exact Context.fits_indexIssue (isTidy_unlistedMessage hname hroot) _ _
  · obtain ⟨f, hf, rfl⟩ := List.mem_map.mp hx
    have hname := hcx.index.files f (List.mem_filter.mp hf).1
    exact Context.fits_indexIssue (isTidy_absentMessage hname hroot) _ _

theorem ContentsCoverage.fits_of_mem_check (hcx : cx.IsOneLine) (hx : x ∈ check cx) :
    x.Fits cx docs := by
  obtain ⟨f, hf, rfl⟩ := List.mem_map.mp hx
  have hname := hcx.index.files f (List.mem_filter.mp hf).1
  exact Context.fits_indexIssue (isTidy_message hname) _ _

theorem Orphan.fits_of_mem_check (hcx : cx.IsOneLine) {linked : List String}
    (hx : x ∈ check cx linked) : x.Fits cx docs := by
  obtain ⟨f, hf, rfl⟩ := List.mem_map.mp hx
  have hname := hcx.index.files f (List.mem_filter.mp hf).1
  exact Context.fits_indexIssue (isTidy_message hname) _ _

/-- Every finding of every rule fits. -/
theorem Checker.fits_of_mem_report (hcx : cx.IsOneLine) (hdocs : ∀ d ∈ docs, d.IsOneLine)
    {c : Checker} (hc : c ∈ all) (hx : x ∈ c.report cx docs) : x.Fits cx docs := by
  refine report_cases ?anchor ?link ?missingSource ?title ?contentsCoverage ?orphan hc hx
  case anchor => exact fun d hd x hx => Anchor.fits_of_mem_check hcx hd (hdocs d hd) hx
  case link => exact fun d hd x hx => Link.fits_of_mem_check hcx hd (hdocs d hd) hx
  case missingSource => exact fun x hx => MissingSource.fits_of_mem_check hcx hx
  case title => exact fun d hd x hx => Title.fits_of_mem_check hd (hdocs d hd) hx
  case contentsCoverage => exact fun x hx => ContentsCoverage.fits_of_mem_check hcx hx
  case orphan => exact fun linked x hx => Orphan.fits_of_mem_check hcx hx

end Fits

end HelpAudit
