import HelpAudit.Proofs.Report.Finding
import HelpAudit.Proofs.Report.RoundTrip
import HelpAudit.Proofs.Sequence
import HelpAudit.Source.Memory

/-!
The files that places read back from a report are in. A name with a colon, and an empty one, are
passed over by the reader, which then takes what stands below them for places in the last file
before that it could read.
-/
namespace HelpAudit

/-- The last name of the groups that can be read. -/
def lastHeading? (gs : List IssueGroup) : Option String :=
  ((gs.map (·.file)).filter canHead).getLast?

theorem lastHeading?_cons (g : IssueGroup) (gs : List IssueGroup) (file : Option String) :
    (lastHeading? (g :: gs)).or file =
      (lastHeading? gs).or (if canHead g.file then some g.file else file) := by
  unfold lastHeading?
  rw [List.map_cons]
  by_cases h : canHead g.file
  · rw [List.filter_cons_of_pos h, List.getLast?_cons, if_pos h]
    cases ((gs.map (·.file)).filter canHead).getLast? <;> rfl
  · rw [List.filter_cons_of_neg h, if_neg h]

/-- What a group gives after the groups before it: its findings below its name, or, when its name
cannot be read, what reads as a place below the last name before. -/
def ReadsAfter (file : Option String) (j : Jump) (before : List IssueGroup) (g : IssueGroup) :
    Prop :=
  canHead g.file = true ∧ j ∈ g.issues.filterMap (·.jumpIn? g.file) ∨
    canHead g.file = false ∧ ∃ f, (lastHeading? before).or file = some f ∧ j ∈ strays f g

theorem mem_readGroups {file : Option String} {gs : List IssueGroup} {j : Jump} :
    j ∈ readGroups file gs ↔ ExistsAfter (ReadsAfter file j) gs := by
  induction gs generalizing file with
  | nil => simp [readGroups, not_existsAfter_nil]
  | cons g gs ih =>
    have hafter : (fun before => ReadsAfter file j (g :: before)) =
        ReadsAfter (if canHead g.file then some g.file else file) j := by
      funext before h
      rw [ReadsAfter, ReadsAfter, lastHeading?_cons]
    rw [existsAfter_cons, hafter, ← ih, readGroups]
    by_cases h : canHead g.file
    · rw [if_pos h, if_pos h, List.mem_append]
      simp [ReadsAfter, h]
    · rw [if_neg h, if_neg h, List.mem_append]
      simp [ReadsAfter, h, lastHeading?, List.mem_flatMap]

namespace LintResult

/-- A finding stands at the place. -/
def Finds (r : LintResult) (j : Jump) : Prop :=
  ∃ d ∈ r.issues, d.file = j.file ∧ d.position = ⟨j.line, j.column⟩

variable {r : LintResult}

theorem finds_of_mem_filterMap {g : IssueGroup} (hg : g ∈ groupByFile r.issues) {j : Jump}
    (hj : j ∈ g.issues.filterMap (·.jumpIn? g.file)) : r.Finds j := by
  obtain ⟨d, hd, hj⟩ := List.mem_filterMap.mp hj
  obtain ⟨hmem, hfile⟩ := (mem_issues_of_mem hg).mp hd
  unfold Diagnostic.jumpIn? at hj
  split at hj
  · obtain rfl := Option.some.inj hj
    exact ⟨d, hmem, hfile, rfl⟩
  · cases hj

/-- Places read back from the report are places of findings. -/
def LeadsToFindings (r : LintResult) : Prop := ∀ j ∈ Jump.ofReport r.report, r.Finds j

/-- What reads as a place below a name that cannot be read is the place of a finding in the last
file before it. -/
def StraysAreFound (r : LintResult) : Prop :=
  ∀ before g after f, groupByFile r.issues = before ++ g :: after → canHead g.file = false →
    lastHeading? before = some f → ∀ j ∈ strays f g, r.Finds j

theorem leadsToFindings_iff (h : r.IsWritable) : r.LeadsToFindings ↔ r.StraysAreFound := by
  unfold LeadsToFindings StraysAreFound
  rw [ofReport_eq_readGroups h]
  constructor
  · intro hall before g after f hsplit hhead hlast j hj
    have hreads : ReadsAfter none j before g := .inr ⟨hhead, f, by rw [hlast]; rfl, hj⟩
    exact hall j (mem_readGroups.mpr ⟨before, g, after, hsplit, hreads⟩)
  · intro hall j hj
    obtain ⟨before, g, after, hsplit, hreads⟩ := mem_readGroups.mp hj
    rcases hreads with ⟨-, hj⟩ | ⟨hhead, f, hlast, hj⟩
    · exact finds_of_mem_filterMap (by simp [hsplit]) hj
    · rw [Option.or_none] at hlast
      exact hall before g after f hsplit hhead hlast j hj

theorem straysAreFound_of_canHead (h : ∀ d ∈ r.issues, canHead d.file = true) :
    r.StraysAreFound := by
  intro before g after f hsplit hhead
  have hg : g ∈ groupByFile r.issues := by simp [hsplit]
  obtain ⟨d, hd, hfile⟩ := exists_issue_of_mem hg
  have hcan := h d hd
  rw [hfile, hhead] at hcan
  cases hcan

end LintResult

namespace Target

/-- What linting a target results in. -/
def outcome (t : Target) (catalog : Catalog) (source : Source) (scanner : Scanner) : LintResult :=
  let run := (t.lint catalog source scanner).value
  t.result run.1 run.2

/-- Linting what a path asks for results in the outcome of its target. -/
theorem lint_value_eq_outcome (st : Store) (source : Source) (scanner : Scanner) (path : String) :
    (st.lint source scanner path).value =
      (resolve? st.catalog path).map (·.outcome st.catalog source scanner) := by
  unfold Store.lint
  cases resolve? st.catalog path with
  | none => rfl
  | some t => rfl

variable {t : Target} {catalog : Catalog} {source : Source} {d : Diagnostic}

/-- Each finding of a run stands in a file of the target or in the index, with a message that fits
on a line. -/
theorem file_and_message_of_mem_outcome (hcx : Context.IsOneLine ⟨t.index, catalog, source⟩)
    (hfiles : ∀ file ∈ t.files, '\n' ∉ file.toList)
    (hd : d ∈ (t.outcome catalog source .help).issues) :
    (d.file = t.index.indexFile ∨ d.file ∈ t.files) ∧ IsTidy d.message := by
  have hdocs : ∀ doc ∈ (t.documents source .help).value, doc.file ∈ t.files ∧ doc.IsOneLine := by
    intro doc hdoc
    obtain ⟨file, hfile, text, -, rfl⟩ := mem_documents.mp hdoc
    exact ⟨hfile, Document.isOneLine_scan (hfiles file hfile) text⟩
  have hd : d ∈ (t.lint catalog source .help).value.1 := hd
  rw [lint_value] at hd
  obtain ⟨c, hc, hd⟩ := List.mem_flatMap.mp hd
  have hfits := Checker.fits_of_mem_report hcx (fun doc hdoc => (hdocs doc hdoc).2)
    (Checker.forScope_subset_all t.scope c hc) hd
  refine ⟨hfits.file.imp_right ?_, hfits.message⟩
  rintro ⟨doc, hdoc, hfile⟩
  rw [hfile]
  exact (hdocs doc hdoc).1

theorem isWritable_outcome (hcx : Context.IsOneLine ⟨t.index, catalog, source⟩)
    (hfiles : ∀ file ∈ t.files, '\n' ∉ file.toList) :
    (t.outcome catalog source .help).IsWritable where
  package := hcx.index.package
  title := fun file hfile => hfiles file (List.mem_of_mem_head? hfile)
  files := by
    intro d hd
    rcases (file_and_message_of_mem_outcome hcx hfiles hd).1 with hfile | hfile
    · rw [hfile]
      exact hcx.index.indexFile
    · exact hfiles _ hfile
  messages := fun d hd => (file_and_message_of_mem_outcome hcx hfiles hd).2

/-- In a run without line feeds in its names, places read back from the report are those of
findings as far as what stands below names that cannot be read is; so they are where all names can
be read. -/
theorem leadsToFindings_outcome (t : Target) (catalog : Catalog) (source : Source)
    (hcx : Context.IsOneLine ⟨t.index, catalog, source⟩)
    (hfiles : ∀ file ∈ t.files, '\n' ∉ file.toList) :
    ((t.outcome catalog source .help).LeadsToFindings ↔
        (t.outcome catalog source .help).StraysAreFound) ∧
      (canHead t.index.indexFile = true → (∀ file ∈ t.files, canHead file = true) →
        (t.outcome catalog source .help).LeadsToFindings) := by
  have hiff := LintResult.leadsToFindings_iff (isWritable_outcome hcx hfiles)
  refine ⟨hiff, fun hindex hheads => hiff.mpr ?_⟩
  apply LintResult.straysAreFound_of_canHead
  intro d hd
  rcases (file_and_message_of_mem_outcome hcx hfiles hd).1 with hfile | hfile
  · rw [hfile, hindex]
  · exact hheads _ hfile

/-- A package with a broken link in each of its two files. -/
def brokenLinks (second : String) : Index :=
  ((Draft.start "Docs" "Docs/help").declareAll [.file "a.txt" "A", .file second "B"]).build

def brokenTexts (second : String) : Source :=
  (Memory.ofList [("Docs/help/a.txt", "|x|"), ("Docs/help/" ++ second, "\n|y|")]).source

def brokenRun (second : String) : LintResult :=
  (wholePackage (brokenLinks second)).outcome .empty (brokenTexts second) .help

theorem isOneLine_brokenLinks (second : String) (h : second ∈ ["b.txt", "b:c.txt"]) :
    Context.IsOneLine ⟨brokenLinks second, .empty, brokenTexts second⟩ := by
  simp only [List.mem_cons, List.not_mem_nil, or_false] at h
  refine ⟨?_, fun ix hix => absurd hix (by simp [NameMap.values, NameMap.empty]), ?_⟩
  · rcases h with rfl | rfl
    · exact ⟨by decide, by decide, by decide, by decide +kernel, by decide +kernel⟩
    · exact ⟨by decide, by decide, by decide, by decide +kernel, by decide +kernel⟩
  · rcases h with rfl | rfl
    · decide +kernel
    · decide +kernel

/-- Where no name has a colon, all eight findings are found. -/
theorem brokenRun_leadsToFindings :
    Context.IsOneLine ⟨brokenLinks "b.txt", .empty, brokenTexts "b.txt"⟩ ∧
      (∀ file ∈ (wholePackage (brokenLinks "b.txt")).files,
        '\n' ∉ file.toList ∧ canHead file = true) ∧
      canHead (brokenLinks "b.txt").indexFile = true ∧
      (brokenRun "b.txt").issues.length = 8 ∧ (brokenRun "b.txt").LeadsToFindings := by
  have hcx := isOneLine_brokenLinks "b.txt" (by decide)
  have hfiles : ∀ file ∈ (wholePackage (brokenLinks "b.txt")).files,
      '\n' ∉ file.toList ∧ canHead file = true := by decide +kernel
  have hindex : canHead (brokenLinks "b.txt").indexFile = true := by decide +kernel
  refine ⟨hcx, hfiles, hindex, by decide +kernel, ?_⟩
  exact (leadsToFindings_outcome (wholePackage (brokenLinks "b.txt")) .empty
    (brokenTexts "b.txt") hcx (fun file hf => (hfiles file hf).1)).2 hindex
      fun file hf => (hfiles file hf).2

/-- The link of a file `b:c.txt` is read as one of the file before it, which has no second line. -/
theorem not_leadsToFindings_outcome :
    ¬∀ (t : Target) (catalog : Catalog) (source : Source),
      Context.IsOneLine ⟨t.index, catalog, source⟩ →
      (∀ u ∈ t.index.topics.values, ∀ name ∈ u.aliases, '\n' ∉ name.toList) →
      (∀ file ∈ t.files, '\n' ∉ file.toList) →
      (t.outcome catalog source .help).LeadsToFindings := by
  intro hall
  have hcx := isOneLine_brokenLinks "b:c.txt" (by decide)
  have hfiles : ∀ file ∈ (wholePackage (brokenLinks "b:c.txt")).files, '\n' ∉ file.toList := by
    decide +kernel
  have hfinds := hall (wholePackage (brokenLinks "b:c.txt")) .empty _ hcx (by decide +kernel) hfiles
  rw [LintResult.LeadsToFindings,
    LintResult.ofReport_eq_readGroups (isWritable_outcome hcx hfiles)] at hfinds
  have hstray : ⟨"a.txt", 2, 1, "Link references unknown topic 'y'"⟩ ∈
      readGroups none (groupByFile (brokenRun "b:c.txt").issues) := by decide +kernel
  obtain ⟨d, hd, hfile, hposition⟩ := hfinds _ hstray
  have hnone : ∀ d ∈ (brokenRun "b:c.txt").issues, d.file = "a.txt" → d.position ≠ ⟨2, 1⟩ := by
    decide +kernel
  exact hnone d hd hfile hposition

end Target

end HelpAudit
