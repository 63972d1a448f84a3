import HelpAudit.Proofs.Index.Precedence
import HelpAudit.Proofs.Rule.MissingSource

/-!
What the source has and what the index declares. The rule warns of each help file below the
documentation folder that is not declared and finds fault with each declared file that is not there,
so a file is named once when it is on one side only, and otherwise not at all.
-/
namespace HelpAudit.MissingSource

/-- Among the resources is one that goes on from the documentation folder with this path, which ends
as that of a help file. -/
def IsThere (files : List (String × String)) (docRoot file : String) : Prop :=
  docRoot ++ "/" ++ file ∈ (files.map fun f => Resource.normalize f.1) ∧ HasHelpEnding file

instance (files : List (String × String)) (docRoot file : String) :
    Decidable (IsThere files docRoot file) :=
  inferInstanceAs (Decidable (_ ∧ _))

/-- The finding names the file as one that only the source has or only the index. -/
def Names (docRoot file : String) (x : Diagnostic) : Prop :=
  x.message = unlistedMessage file docRoot ∨ x.message = absentMessage file docRoot

instance (docRoot file : String) (x : Diagnostic) : Decidable (Names docRoot file x) :=
  inferInstanceAs (Decidable (_ ∨ _))

/-- A warning that only the source has the file. -/
def unlistedIssue (cx : Context) (file : String) : Diagnostic :=
  cx.indexIssue .warning ruleName (unlistedMessage file cx.index.docRoot)

/-- An error because only the index has the file. -/
def absentIssue (cx : Context) (file : String) : Diagnostic :=
  cx.indexIssue .error ruleName (absentMessage file cx.index.docRoot)

theorem unlistedMessage_injective {file file' docRoot : String}
    (h : unlistedMessage file docRoot = unlistedMessage file' docRoot) : file = file' := by
  simpa only [unlistedMessage, String.append_left_inj, String.append_right_inj] using h

variable {cx : Context} {file other : String}

theorem names_unlistedIssue :
    Names cx.index.docRoot file (unlistedIssue cx other) ↔ other = file := by
  constructor
  · rintro (h | h)
    · exact unlistedMessage_injective h
    · exact absurd h (unlistedMessage_ne_absentMessage other file _)
  · rintro rfl
    exact .inl rfl

theorem names_absentIssue :
    Names cx.index.docRoot file (absentIssue cx other) ↔ other = file := by
  constructor
  · rintro (h | h)
    · exact absurd h.symm (unlistedMessage_ne_absentMessage file other _)
    · exact absentMessage_injective h
  · rintro rfl
    exact .inr rfl

/-- The report is made of the files that only one of the two sides has. -/
theorem check_eq_difference (cx : Context) : check cx =
    ((onDisk cx).filter (· ∉ cx.index.files.map (·.path))).map (unlistedIssue cx) ++
      ((cx.index.files.map (·.path)).filter (· ∉ onDisk cx)).map (absentIssue cx) := by
  have hunlisted : (onDisk cx).filter (!cx.index.hasFile ·) =
      (onDisk cx).filter (· ∉ cx.index.files.map (·.path)) := by
    apply List.filter_congr
    intro file _
    rw [Bool.eq_iff_iff, decide_eq_true_iff, ← Index.hasFile_iff]
    simp
  have habsent : (cx.index.files.filter (!(onDisk cx).contains ·.path)).map (·.path) =
      (cx.index.files.map (·.path)).filter (· ∉ onDisk cx) := by
    rw [List.filter_map]
    congr 1
    apply List.filter_congr
    intro f _
    simp
  rw [← hunlisted, ← habsent, List.map_map]
  rfl

/-- Findings with one file each name a file as often as it is among theirs. -/
theorem countP_names {docRoot : String} {issue : String → Diagnostic}
    (h : ∀ other, Names docRoot file (issue other) ↔ other = file) (others : List String) :
    (others.map issue).countP (Names docRoot file) = others.count file := by
  rw [List.countP_map]
  apply List.countP_congr
  intro other _
  simp [h]

/-- A file that is on one side only is named once, any other not at all. -/
theorem countP_check (hnodup : (cx.index.files.map (·.path)).Nodup) (file : String) :
    (check cx).countP (Names cx.index.docRoot file) =
      if file ∈ onDisk cx ↔ file ∈ cx.index.files.map (·.path) then 0 else 1 := by
  have hthere : (onDisk cx).Nodup := NameMap.nodup_names _
  rw [check_eq_difference, List.countP_append, countP_names fun _ => names_unlistedIssue,
    countP_names fun _ => names_absentIssue, (hthere.filter _).count, (hnodup.filter _).count]
  simp only [List.mem_filter, decide_eq_true_eq]
  by_cases hleft : file ∈ onDisk cx <;>
    by_cases hright : file ∈ cx.index.files.map (·.path) <;> simp only [hleft, hright] <;> simp

/-- The rule warns of each help file of the source that is not declared, in ascending order, and
then finds fault with each declared file that is not there, in the order of their declarations. It
names a file once if it is on one side only, and else not at all. -/
theorem reports_difference {ix : Index} (hix : ix.IsBuilt) (hroot : ix.docRoot ≠ "")
    (catalog : Catalog) (files : List (String × String)) (docs : List Document) :
    let cx : Context := ⟨ix, catalog, (Memory.ofList files).source⟩
    let declared := ix.files.map (·.path)
    let report := Checker.missingSource.report cx docs
    (∃ unlisted : List String, unlisted.Pairwise (· < ·) ∧
      (∀ file, file ∈ unlisted ↔ IsThere files ix.docRoot file ∧ file ∉ declared) ∧
      report = unlisted.map (unlistedIssue cx) ++
        (declared.filter (¬ IsThere files ix.docRoot ·)).map (absentIssue cx)) ∧
    ∀ file, report.countP (Names ix.docRoot file) =
      if IsThere files ix.docRoot file ↔ file ∈ declared then 0 else 1 := by
  intro cx declared report
  have hreport : report = check cx := Checker.report_missingSource cx docs
  have hthere (file : String) : file ∈ onDisk cx ↔ IsThere files ix.docRoot file := by
    rw [mem_onDisk_iff_contains hix.docRoot_canonical hroot, Memory.contains_ofList]
    rfl
  rw [hreport]
  refine ⟨⟨(onDisk cx).filter (· ∉ declared), ?ascending, ?members, ?eq⟩, ?count⟩
  case ascending => exact (NameMap.names_pairwise _).filter _
  case members =>
    intro file
    rw [List.mem_filter, hthere, decide_eq_true_iff]
  case eq =>
    rw [check_eq_difference]
    simp only [hthere]
    rfl
  case count =>
    intro file
    have hnodup : (cx.index.files.map (·.path)).Nodup := hix.sound.paths_nodup
    simpa only [hthere] using countP_check hnodup file

/-- A package that lacks two files and declares one with another ending. -/
def fourPages : Index :=
  ((Draft.start "Docs" "Docs/help").declareAll
    [.file "index.txt" "Index", .file "sub/deep.txt" "Deep", .file "notes.md" "Notes",
      .file "gone.txt" "Gone"]).build

/-- Texts below the documentation folder and in a folder whose name goes on from its name. -/
def fourTexts : List (String × String) :=
  [("Docs/helper/x.txt", ""), ("Docs/help/index.txt", ""), ("Docs\\help//sub/deep.txt", ""),
    ("Docs/help/.txt", ""), ("Docs/help/a.txt/../Extra.txt", ""), ("Docs/help/b.txt.old", ""),
    ("Docs/help/notes.md", "")]

def fourReport : List Diagnostic :=
  Checker.missingSource.report ⟨fourPages, .empty, (Memory.ofList fourTexts).source⟩ []

theorem fourReport_difference : fourPages.IsBuilt ∧ fourPages.docRoot ≠ "" ∧
    fourReport.map (fun x => (x.severity, x.message)) =
      [(.warning, unlistedMessage ".txt" "Docs/help"),
        (.warning, unlistedMessage "Extra.txt" "Docs/help"),
        (.error, absentMessage "notes.md" "Docs/help"),
        (.error, absentMessage "gone.txt" "Docs/help")] ∧
    fourReport.countP (Names fourPages.docRoot ".txt") = 1 ∧
    fourReport.countP (Names fourPages.docRoot "sub/deep.txt") = 0 := by
  have hix : fourPages.IsBuilt := ⟨_, _, _, rfl⟩
  have hroot : fourPages.docRoot ≠ "" := by decide +kernel
  obtain ⟨-, hcount⟩ := reports_difference hix hroot .empty fourTexts []
  refine ⟨hix, hroot, by decide +kernel, (hcount ".txt").trans ?_, (hcount "sub/deep.txt").trans ?_⟩
  · decide +kernel
  · decide +kernel

end HelpAudit.MissingSource
