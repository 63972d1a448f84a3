import HelpAudit.Proofs.Index.Precedence
import HelpAudit.Proofs.Rule.AnchorConflict

/-!
The verdict on each anchor of a file and on each topic of it. An anchor is at home when its topic is
well written and lives in the file. It is a repetition when it goes by the file's name, or when an
anchor before it, sound or not, leads to the same topic; else nothing is said of it. The topics that
no such silent anchor leads to are missing, apart from the one of the file's name.
-/
namespace HelpAudit.Anchor

open Markup (Span)

/-- The anchor's topic is well written and lives in the file. -/
def IsAtHome (ix : Index) (file : String) (s : Span) : Prop :=
  isProper (topicOf s) = true ∧ (ix.lookup (topicOf s)).map (·.file) = some file

/-- The anchor or its topic goes by the file's name, or one of the anchors before it leads to the
same topic. -/
def IsRepetition (ix : Index) (file : String) (before : List Span) (s : Span) : Prop :=
  topicOf s = file ∨ (ix.lookup (topicOf s)).map (·.id) = some file ∨
    ∃ u ∈ before, ix.lookup (topicOf u) = ix.lookup (topicOf s)

/-- The fault that is found in an anchor after the anchors before it. -/
def verdict? (ix : Index) (file : String) (before : List Span) (s : Span) : Option Fault :=
  fault? ix file (progress ix file before).seen (topicOf s)

instance (ix : Index) (file : String) (s : Span) : Decidable (IsAtHome ix file s) :=
  inferInstanceAs (Decidable (_ ∧ _))

instance (ix : Index) (file : String) (before : List Span) (s : Span) :
    Decidable (IsRepetition ix file before s) :=
  inferInstanceAs (Decidable (_ ∨ _ ∨ _))

/-- The anchors at home that repeat nothing. -/
def silent (ix : Index) (file : String) (spans : List Span) : List Span :=
  filterMapAfter (fun before s =>
    if IsAtHome ix file s ∧ ¬IsRepetition ix file before s then some s else none) spans

/-- No silent anchor leads to the topic, which has not the file's name for its id. -/
def IsMissing (ix : Index) (file : String) (spans : List Span) (t : Topic) : Prop :=
  t.id ≠ file ∧ ∀ s ∈ silent ix file spans, ix.lookup (topicOf s) ≠ some t

instance (ix : Index) (file : String) (spans : List Span) (t : Topic) :
    Decidable (IsMissing ix file spans t) :=
  inferInstanceAs (Decidable (_ ∧ _))

/-- What is reported of an anchor with a fault. -/
def finding (d : Document) (s : Span) (f : Fault) : Diagnostic :=
  ⟨f.severity, ruleName, d.file, d.position s, f.message⟩

/-- What is reported of a missing topic. -/
def missingFinding (cx : Context) (d : Document) (t : Topic) : Diagnostic :=
  cx.indexIssue .warning ruleName (missingMessage t.id d.file)

variable {ix : Index} {file : String} {before spans : List Span} {s : Span} {t : Topic}

/-- The faults of a file are the verdicts on its anchors, in order. -/
theorem faults_eq (ix : Index) (file : String) (spans : List Span) :
    (progress ix file spans).faults =
      filterMapAfter (fun before s => (verdict? ix file before s).map (s, ·)) spans := by
  induction spans using List.reverseRecOn with
  | nil => rfl
  | append_singleton spans s ih =>
    rw [progress_concat, faults_add, filterMapAfter_concat, ih]
    rfl

theorem mem_silent : s ∈ silent ix file spans ↔ ExistsAfter (fun before u =>
    (IsAtHome ix file u ∧ ¬IsRepetition ix file before u) ∧ u = s) spans := by
  simp only [silent, mem_filterMapAfter, Option.ite_none_right_eq_some, Option.some.injEq]

theorem silent_concat (spans : List Span) (s : Span) : silent ix file (spans ++ [s]) =
    silent ix file spans ++
      if IsAtHome ix file s ∧ ¬IsRepetition ix file spans s then [s] else [] := by
  rw [silent, filterMapAfter_concat]
  split <;> rfl

/-- No two silent anchors lead to the same topic. -/
theorem nodup_lookup_silent (ix : Index) (file : String) (spans : List Span) :
    ((silent ix file spans).map fun s => ix.lookup (topicOf s)).Nodup := by
  induction spans using List.reverseRecOn with
  | nil => exact .nil
  | append_singleton spans s ih =>
    rw [silent_concat]
    split
    · next h =>
      rw [List.map_append, List.map_singleton, ← List.concat_eq_append]
      refine ih.concat fun hmem => h.2 (.inr (.inr ?_))
      obtain ⟨u, hu, heq⟩ := List.mem_map.mp hmem
      obtain ⟨before, v, after, hspans, -, rfl⟩ := mem_silent.mp hu
      exact ⟨v, by simp [hspans], heq⟩
    · rwa [List.append_nil]

section Sound

variable (hix : Index.Sound ix.files ix.topics)
include hix

/-- Names are seen just when an anchor that leads to their topic repeats something. -/
theorem isRepetition_iff (hl : ix.lookup (topicOf s) = some t) :
    IsRepetition ix file before s ↔ topicOf s ∈ (progress ix file before).seen ∨
      t.id ∈ (progress ix file before).seen := by
  rw [seen_iff hix hl, IsRepetition, hl, Option.map_some, Option.some.injEq]

/-- An anchor at home can only have the fault that it repeats something. -/
theorem verdict?_of_isAtHome (h : IsAtHome ix file s) : verdict? ix file before s =
    if IsRepetition ix file before s then some (.repeated (topicOf s)) else none := by
  obtain ⟨hp, hhome⟩ := h
  obtain ⟨t, hl, hf⟩ := Option.map_eq_some_iff.mp hhome
  split
  · next hrep =>
    rw [isRepetition_iff hix hl] at hrep
    exact fault?_eq_repeated_iff.mpr ⟨rfl, hp, t, hl, hf, hrep⟩
  · next hrep =>
    obtain ⟨hhard, hdouble, hres⟩ := isProper_eq_true_iff.mp hp
    rw [isRepetition_iff hix hl, not_or] at hrep
    exact fault?_eq_none_iff.mpr ⟨hhard, hdouble, .inr ⟨hres, t, hl, hf, hrep⟩⟩

/-- A topic of the file, not of its name, is present when a silent anchor leads to it. -/
theorem id_mem_present_iff_silent (ht : ix.topics.find? t.id = some t) (hf : t.file = file)
    (hne : t.id ≠ file) : t.id ∈ (progress ix file spans).present ↔
      ∃ s ∈ silent ix file spans, ix.lookup (topicOf s) = some t := by
  have hsilent {before : List Span} {u : Span} (hl : ix.lookup (topicOf u) = some t) :
      IsAtHome ix file u ∧ ¬IsRepetition ix file before u ↔ isProper (topicOf u) = true ∧
        topicOf u ≠ file ∧ ∀ v ∈ before, ix.lookup (topicOf v) ≠ some t := by
    simp [IsAtHome, IsRepetition, hl, hf, hne]
  rw [mem_present, or_iff_right hne]
  constructor
  · rintro ⟨before, s, after, hspans, hsound⟩
    obtain ⟨hl, hfresh⟩ := (sound_iff hix ht hf hne).mp hsound
    exact ⟨s, mem_silent.mpr ⟨before, s, after, hspans, (hsilent hl).mpr hfresh, rfl⟩, hl⟩
  · rintro ⟨s, hs, hl⟩
    obtain ⟨before, s, after, hspans, hfresh, rfl⟩ := mem_silent.mp hs
    exact ⟨before, s, after, hspans, (sound_iff hix ht hf hne).mpr ⟨hl, (hsilent hl).mp hfresh⟩⟩

theorem isMissing_iff (ht : t ∈ ix.topicsOf file) :
    IsMissing ix file spans t ↔ t.id ∉ (progress ix file spans).present := by
  obtain ⟨ht, hf⟩ := (Index.mem_topicsOf hix).mp ht
  by_cases hne : t.id = file
  · have hpresent : t.id ∈ (progress ix file spans).present := mem_present.mpr (.inl hne)
    simp [IsMissing, hne, hne ▸ hpresent]
  · rw [id_mem_present_iff_silent hix ht hf hne, IsMissing, and_iff_right hne]
    simp only [not_exists, not_and, ne_eq]

end Sound

variable {cx : Context} {d : Document}

/-- The report has the verdicts on the anchors first and then the missing topics. -/
theorem check_eq (hix : Index.Sound cx.index.files cx.index.topics) : check cx d =
    filterMapAfter (fun before s =>
      (verdict? cx.index d.file before s).map (finding d s)) d.anchors ++
    ((cx.index.topicsOf d.file).filter (IsMissing cx.index d.file d.anchors ·)).map
      (missingFinding cx d) := by
  rw [check, faults_eq, map_filterMapAfter]
  simp only [Option.map_map]
  congr 1
  refine congrArg (List.map _) (List.filter_congr fun t ht => ?_)
  rw [Bool.eq_iff_iff, decide_eq_true_iff, isMissing_iff hix ht]
  simp

/-- No finding about an anchor reads like one about a missing topic. -/
theorem filter_verdicts_eq_nil {name : String} : (filterMapAfter (fun before s =>
      (verdict? ix file before s).map (finding d s)) spans).filter
    (·.message = missingMessage name d.file) = [] := by
  rw [List.filter_eq_nil_iff]
  intro x hx
  obtain ⟨before, s, after, -, hfinding⟩ := mem_filterMapAfter.mp hx
  obtain ⟨f, -, rfl⟩ := Option.map_eq_some_iff.mp hfinding
  rw [decide_eq_true_iff]
  exact f.message_ne_missingMessage

/-- Of the topics of a file one has the id of each. -/
theorem filter_id_topicsOf (hix : Index.Sound ix.files ix.topics) (ht : t ∈ ix.topicsOf file) :
    (ix.topicsOf file).filter (·.id = t.id) = [t] := by
  have hsame : ∀ u ∈ ix.topicsOf file, decide (u.id = t.id) = decide (u = t) := by
    intro u hu
    have hfind := ((Index.mem_topicsOf hix).mp hu).1
    refine decide_eq_decide.mpr ⟨fun hid => ?_, fun heq => heq ▸ rfl⟩
    rw [hid, ((Index.mem_topicsOf hix).mp ht).1] at hfind
    exact (Option.some.inj hfind).symm
  have hnodup : (ix.topicsOf file).Nodup := by
    refine (Index.pairwise_topicsOf hix file).imp fun {a b} hlt heq => ?_
    exact String.lt_irrefl b.id (heq ▸ hlt)
  rw [List.filter_congr hsame, List.filter_eq, List.count_eq_one_of_mem hnodup ht,
    List.replicate_one]

/-- What the rule says of a file. An anchor at home is a repetition, or nothing is said of it; no
two of these silent anchors lead to one topic. Each topic of the file that is missing is warned of
once, the others never, and these warnings come last, in the order of the topics' ids. -/
theorem check_eq_verdicts (cx : Context) (hix : cx.index.IsBuilt) (d : Document) :
    let missing := (cx.index.topicsOf d.file).filter (IsMissing cx.index d.file d.anchors ·)
    check cx d = filterMapAfter (fun before s =>
        (verdict? cx.index d.file before s).map (finding d s)) d.anchors ++
      missing.map (missingFinding cx d) ∧
    (∀ before s after, d.anchors = before ++ s :: after → IsAtHome cx.index d.file s →
      verdict? cx.index d.file before s =
        if IsRepetition cx.index d.file before s then some (.repeated (topicOf s)) else none) ∧
    ((silent cx.index d.file d.anchors).map fun s => cx.index.lookup (topicOf s)).Nodup ∧
    missing.Pairwise (·.id < ·.id) ∧
    ∀ t ∈ cx.index.topicsOf d.file,
      (check cx d).filter (·.message = missingMessage t.id d.file) =
        if IsMissing cx.index d.file d.anchors t then [missingFinding cx d t] else [] := by
  intro missing
  have hsound := hix.sound
  refine ⟨check_eq hsound, fun before s after _ => verdict?_of_isAtHome hsound,
    nodup_lookup_silent _ _ _, (Index.pairwise_topicsOf hsound _).filter _, fun t ht => ?_⟩
  have hname : ((fun x : Diagnostic => decide (x.message = missingMessage t.id d.file)) ∘
      missingFinding cx d) = fun u => decide (u.id = t.id) :=
    funext fun u => decide_eq_decide.mpr missingMessage_inj
  rw [check_eq hsound, List.filter_append, filter_verdicts_eq_nil, List.nil_append,
    List.filter_map, hname, List.filter_comm, filter_id_topicsOf hsound ht, List.filter_singleton]
  split <;> simp [*]

/-- The second anchor of the file is at home and repeats the first, which is badly written; so the
topic of both is missing. -/
theorem twoNames_verdicts : oneSection.index.IsBuilt ∧
    twoNames.anchors = [⟨0, "sec  1"⟩] ++ ⟨9, "sec1"⟩ :: [] ∧
    IsAtHome oneSection.index "a.txt" ⟨9, "sec1"⟩ ∧
    verdict? oneSection.index "a.txt" [⟨0, "sec  1"⟩] ⟨9, "sec1"⟩ = some (.repeated "sec1") ∧
    section₁ ∈ oneSection.index.topicsOf "a.txt" ∧
    (check oneSection twoNames).filter (·.message = missingMessage "sec1" "a.txt") =
      [missingFinding oneSection twoNames section₁] := by
  have hix : oneSection.index.IsBuilt := ⟨_, _, _, rfl⟩
  have hanchors : twoNames.anchors = [⟨0, "sec  1"⟩] ++ ⟨9, "sec1"⟩ :: [] := by decide +kernel
  have hhome : IsAtHome oneSection.index "a.txt" ⟨9, "sec1"⟩ := by decide +kernel
  have hrepeats : IsRepetition oneSection.index "a.txt" [⟨0, "sec  1"⟩] ⟨9, "sec1"⟩ := by
    decide +kernel
  have hlives : section₁ ∈ oneSection.index.topicsOf "a.txt" := by decide +kernel
  have hmissing : IsMissing oneSection.index "a.txt" twoNames.anchors section₁ := by
    decide +kernel
  obtain ⟨-, hverdict, -, -, hwarned⟩ := check_eq_verdicts oneSection hix twoNames
  exact ⟨hix, hanchors, hhome, (hverdict _ _ _ hanchors hhome).trans (if_pos hrepeats), hlives,
    (hwarned section₁ hlives).trans (if_pos hmissing)⟩

end HelpAudit.Anchor
