import HelpAudit.Proofs.Sequence
import HelpAudit.Report.Group
import Mathlib.Algebra.GroupWithZero.Nat

/-! Groups of findings: one for each file, in the order in which the files come up, with all
findings of the file in the order in which they come up. So nothing is lost or counted twice, and
one group after the other is the list sorted by files in a stable way. -/
namespace HelpAudit

/-- The findings of a file as a group. -/
def groupOf (issues : List Diagnostic) (file : String) : IssueGroup :=
  ⟨file, issues.filter (·.file = file)⟩

variable {issues : List Diagnostic} {d : Diagnostic} {files : List String} {file : String}

@[simp] theorem groupOf_file : (groupOf issues file).file = file := rfl

theorem groupOf_concat_self : groupOf (issues ++ [d]) d.file =
    ⟨d.file, (groupOf issues d.file).issues ++ [d]⟩ := by
  simp [groupOf]

theorem groupOf_concat_of_ne (h : d.file ≠ file) :
    groupOf (issues ++ [d]) file = groupOf issues file := by
  simp [groupOf, h]

theorem groupByFile_concat (issues : List Diagnostic) (d : Diagnostic) :
    groupByFile (issues ++ [d]) = addToGroups d (groupByFile issues) := by
  rw [groupByFile, List.foldl_append]
  rfl

theorem addToGroups_map_of_mem (hn : files.Nodup) (hd : d.file ∈ files) :
    addToGroups d (files.map (groupOf issues)) = files.map (groupOf (issues ++ [d])) := by
  induction files with
  | nil => simp at hd
  | cons file files ih =>
    obtain ⟨hfile, hn⟩ := List.nodup_cons.mp hn
    rw [List.map_cons, List.map_cons, addToGroups, groupOf_file]
    split
    · next heq =>
      subst heq
      have hrest : files.map (groupOf (issues ++ [d])) = files.map (groupOf issues) :=
        List.map_congr_left fun f hf => groupOf_concat_of_ne fun heq => hfile (heq ▸ hf)
      rw [hrest, groupOf_concat_self]
    · next hne =>
      rcases List.mem_cons.mp hd with heq | hd
      · exact absurd heq.symm hne
      · rw [ih hn hd, groupOf_concat_of_ne (Ne.symm hne)]

theorem addToGroups_map_of_not_mem (hd : d.file ∉ files) :
    addToGroups d (files.map (groupOf issues)) = files.map (groupOf issues) ++ [⟨d.file, [d]⟩] := by
  induction files with
  | nil => rfl
  | cons file files ih =>
    rw [List.mem_cons, not_or] at hd
    rw [List.map_cons, addToGroups, groupOf_file, if_neg (Ne.symm hd.1), ih hd.2]
    rfl

/-- The groups are those of the files, each at the place where the file first comes up. -/
theorem groupByFile_eq (issues : List Diagnostic) :
    groupByFile issues = (issues.map (·.file)).eraseDups.map (groupOf issues) := by
  induction issues using List.reverseRecOn with
  | nil => rfl
  | append_singleton issues d ih =>
    rw [groupByFile_concat, ih, List.map_append, List.map_singleton, eraseDups_concat]
    split
    · next h => exact addToGroups_map_of_mem (nodup_eraseDups _) (List.mem_eraseDups.mpr h)
    · next h =>
      rw [addToGroups_map_of_not_mem (mt List.mem_eraseDups.mp h), List.map_append]
      congr 1
      · refine List.map_congr_left fun file hf => (groupOf_concat_of_ne fun heq => h ?_).symm
        exact heq ▸ List.mem_eraseDups.mp hf
      · have hnone : issues.filter (·.file = d.file) = [] :=
          List.filter_eq_nil_iff.mpr fun x hx hxf =>
            h (List.mem_map.mpr ⟨x, hx, of_decide_eq_true hxf⟩)
        rw [List.map_singleton, groupOf_concat_self, groupOf, hnone]
        rfl

theorem files_groupByFile (issues : List Diagnostic) :
    (groupByFile issues).map (·.file) = (issues.map (·.file)).eraseDups := by
  rw [groupByFile_eq, List.map_map]
  exact List.map_id' _

theorem perm_addToGroups (d : Diagnostic) (gs : List IssueGroup) :
    ((addToGroups d gs).flatMap (·.issues)).Perm (gs.flatMap (·.issues) ++ [d]) := by
  induction gs with
  | nil => simp [addToGroups]
  | cons g gs ih =>
    unfold addToGroups
    split
    · rw [List.flatMap_cons, List.flatMap_cons, List.append_assoc, List.append_assoc]
      exact List.perm_append_comm.append_left _
    · rw [List.flatMap_cons, List.flatMap_cons, List.append_assoc]
      exact ih.append_left _

/-- The groups hold the findings and nothing else, each once. -/
theorem perm_groupByFile (issues : List Diagnostic) :
    ((groupByFile issues).flatMap (·.issues)).Perm issues := by
  induction issues using List.reverseRecOn with
  | nil => exact List.Perm.refl _
  | append_singleton issues d ih =>
    rw [groupByFile_concat]
    exact (perm_addToGroups d _).trans (ih.append_right _)

/-- A group holds the findings of its file. -/
theorem eq_groupOf_of_mem {g : IssueGroup} (hg : g ∈ groupByFile issues) :
    g = groupOf issues g.file := by
  rw [groupByFile_eq] at hg
  obtain ⟨file, -, rfl⟩ := List.mem_map.mp hg
  rfl

theorem mem_issues_of_mem {g : IssueGroup} (hg : g ∈ groupByFile issues) :
    d ∈ g.issues ↔ d ∈ issues ∧ d.file = g.file := by
  rw [eq_groupOf_of_mem hg]
  simp [groupOf]

theorem exists_issue_of_mem {g : IssueGroup} (hg : g ∈ groupByFile issues) :
    ∃ d ∈ issues, d.file = g.file := by
  rw [groupByFile_eq] at hg
  obtain ⟨file, hfile, rfl⟩ := List.mem_map.mp hg
  exact List.mem_map.mp (List.mem_eraseDups.mp hfile)

/-- The same findings, those of each file in the same order. -/
structure IsStableRearrangement (issues arranged : List Diagnostic) : Prop where
  perm : arranged.Perm issues
  stable : ∀ file, arranged.filter (·.file = file) = issues.filter (·.file = file)

theorem filter_groupOf (issues : List Diagnostic) (file other : String) :
    (groupOf issues other).issues.filter (·.file = file) =
      if other = file then issues.filter (·.file = file) else [] := by
  rw [groupOf, List.filter_filter]
  split
  · next h => simp [h]
  · next h =>
    refine List.filter_eq_nil_iff.mpr fun d _ hd => h ?_
    simp only [Bool.and_eq_true, decide_eq_true_eq] at hd
    exact hd.2.symm.trans hd.1

/-- Of the groups of distinct files, only that of a file holds findings of it. -/
theorem filter_flatMap_groupOf (hn : files.Nodup) (file : String) :
    ((files.map (groupOf issues)).flatMap (·.issues)).filter (·.file = file) =
      if file ∈ files then issues.filter (·.file = file) else [] := by
  induction files with
  | nil => rfl
  | cons other files ih =>
    obtain ⟨hother, hn⟩ := List.nodup_cons.mp hn
    rw [List.map_cons, List.flatMap_cons, List.filter_append, ih hn, filter_groupOf]
    by_cases h : other = file
    · subst h
      simp [hother]
    · simp [h, Ne.symm h]

theorem isStableRearrangement_groupByFile (issues : List Diagnostic) :
    IsStableRearrangement issues ((groupByFile issues).flatMap (·.issues)) := by
  refine ⟨perm_groupByFile issues, fun file => ?_⟩
  rw [groupByFile_eq, filter_flatMap_groupOf (nodup_eraseDups _)]
  split
  · rfl
  · next h =>
    refine (List.filter_eq_nil_iff.mpr fun d hd hfile => h ?_).symm
    exact List.mem_eraseDups.mpr (List.mem_map.mpr ⟨d, hd, of_decide_eq_true hfile⟩)

theorem issues_ne_nil_of_mem {g : IssueGroup} (hg : g ∈ groupByFile issues) : g.issues ≠ [] := by
  obtain ⟨d, hd, hfile⟩ := exists_issue_of_mem hg
  exact List.ne_nil_of_mem ((mem_issues_of_mem hg).mpr ⟨hd, hfile⟩)

theorem sum_countOf_groupByFile (s : Severity) (issues : List Diagnostic) :
    ((groupByFile issues).map fun g => countOf s g.issues).sum = countOf s issues := by
  have hflat : ((groupByFile issues).map fun g => countOf s g.issues).sum =
      countOf s ((groupByFile issues).flatMap (·.issues)) := List.countP_flatMap.symm
  rw [hflat]
  exact (perm_groupByFile issues).countP_eq _

/-- Each finding has one of the three severities. -/
theorem sum_countOf (issues : List Diagnostic) :
    countOf .error issues + countOf .warning issues + countOf .info issues = issues.length := by
  induction issues with
  | nil => rfl
  | cons d issues ih =>
    have hcons (s : Severity) : countOf s (d :: issues) =
        countOf s issues + if d.severity = s then 1 else 0 := by
      simp [countOf, List.countP_cons]
    rw [hcons, hcons, hcons, List.length_cons]
    cases hs : d.severity <;> simp <;> omega

/-- Grouping loses and reorders nothing. Each file with findings has one group, at the place where
the file first comes up, with its findings in their order; what is counted in the groups adds up to
what is counted in the whole list. -/
theorem groupByFile_stable (issues : List Diagnostic) :
    let groups := groupByFile issues
    let position (g : IssueGroup) := (issues.map (·.file)).idxOf g.file
    (groups.map (·.file)).Nodup ∧ groups.Pairwise (position · < position ·) ∧
    (∀ g ∈ groups, g.issues ≠ [] ∧ g.issues = issues.filter (·.file = g.file)) ∧
    IsStableRearrangement issues (groups.flatMap (·.issues)) ∧
    ∀ scanned,
      let whole := Summary.tally issues scanned
      let total (count : Summary → Nat) :=
        (groups.map fun g => count (Summary.tally g.issues scanned)).sum
      total (·.errors) = whole.errors ∧ total (·.warnings) = whole.warnings ∧
        total (·.infos) = whole.infos ∧
        total (·.errors) + total (·.warnings) + total (·.infos) = issues.length := by
  intro groups position
  have hfiles : groups.map (·.file) = (issues.map (·.file)).eraseDups := files_groupByFile issues
  refine ⟨hfiles ▸ nodup_eraseDups _, ?_, fun g hg => ⟨issues_ne_nil_of_mem hg, ?_⟩,
    isStableRearrangement_groupByFile issues, fun scanned => ?_⟩
  · have hpositions := pairwise_idxOf_eraseDups (issues.map (·.file))
    rw [← hfiles, List.pairwise_map] at hpositions
    exact hpositions
  · rw [eq_groupOf_of_mem hg]
    rfl
  · intro whole total
    have herrors : total (·.errors) = whole.errors := sum_countOf_groupByFile .error issues
    have hwarnings : total (·.warnings) = whole.warnings := sum_countOf_groupByFile .warning issues
    have hinfos : total (·.infos) = whole.infos := sum_countOf_groupByFile .info issues
    refine ⟨herrors, hwarnings, hinfos, ?_⟩
    rw [herrors, hwarnings, hinfos]
    exact sum_countOf issues

end HelpAudit
