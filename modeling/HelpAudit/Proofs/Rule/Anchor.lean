import HelpAudit.Proofs.Index.Draft
import HelpAudit.Proofs.Sequence
import HelpAudit.Rule.Anchor
import Mathlib.Data.List.Induction

/-!
Anchors read one after the other. What has been seen are the names of the anchors before; what is
present are the names of those among them that are sound. In a file without findings every anchor
names a topic of the file, and every topic of the file has one anchor.
-/
namespace HelpAudit.Anchor

open Markup (Span)

def topicOf (s : Span) : String := (Markup.AnchorBody.parse s.body).topic

variable {ix : Index} {file name : String} {spans : List Span}

theorem isReserved_noTopic : isReserved noTopic = true := by decide

/-- An anchor passes when it opts out, or names a topic of the file that no anchor named before. -/
theorem fault?_eq_none_iff {seen : List String} {topic : String} :
    fault? ix file seen topic = none ↔
      hasHardSpace topic = false ∧ hasDoubleSpace topic.toList = false ∧
        (topic = noTopic ∨ isReserved topic = false ∧ ∃ t, ix.lookup topic = some t ∧
          t.file = file ∧ topic ∉ seen ∧ t.id ∉ seen) := by
  unfold fault?
  split
  · next h => simp [h]
  · next hhard =>
    split
    · next h => simp [h]
    · next hdouble =>
      simp only [Bool.not_eq_true] at hhard hdouble
      split
      · next hres =>
        split
        · next heq =>
          subst heq
          simp [hhard, hdouble]
        · next hne => simp [hne, hres]
      · next hres =>
        have hne : topic ≠ noTopic := fun h => hres (h ▸ isReserved_noTopic)
        cases hl : ix.lookup topic with
        | none => simp [hne]
        | some t =>
          by_cases hf : t.file = file
          · by_cases hs : topic ∈ seen <;> by_cases hi : t.id ∈ seen <;>
              simp [hf, hs, hi, hne, hres, hhard, hdouble]
          · simp [hf, hne]

theorem mem_namesOf {topic : String} :
    name ∈ namesOf ix topic ↔ name = topic ∨ ∃ t, ix.lookup topic = some t ∧ t.id = name := by
  simp [namesOf]

@[simp] theorem progress_nil : progress ix file [] = .start file := rfl

theorem progress_concat (ix : Index) (file : String) (spans : List Span) (s : Span) :
    progress ix file (spans ++ [s]) = (progress ix file spans).add ix file s := by
  rw [progress, List.foldl_append]
  rfl

theorem seen_add (p : Progress) (s : Span) :
    (p.add ix file s).seen = namesOf ix (topicOf s) ++ p.seen := by
  dsimp only [Progress.add, topicOf]
  split <;> rfl

theorem faults_add (p : Progress) (s : Span) :
    (p.add ix file s).faults =
      p.faults ++ ((fault? ix file p.seen (topicOf s)).map (s, ·)).toList := by
  dsimp only [Progress.add, topicOf]
  split
  · next h => rw [h]; rfl
  · next h => rw [h]; simp

theorem mem_present_add (p : Progress) (s : Span) :
    name ∈ (p.add ix file s).present ↔ name ∈ p.present ∨
      fault? ix file p.seen (topicOf s) = none ∧ isReserved (topicOf s) = false ∧
        name ∈ namesOf ix (topicOf s) := by
  dsimp only [Progress.add, topicOf]
  split
  · next h => simp [h]
  · next h =>
    rw [h]
    cases hr : isReserved (Markup.AnchorBody.parse s.body).topic with
    | false => simp [or_comm]
    | true => simp

/-- The file's own name has been seen from the start, the names of an anchor once it is read. -/
theorem mem_seen : name ∈ (progress ix file spans).seen ↔
    name = file ∨ ∃ s ∈ spans, name ∈ namesOf ix (topicOf s) := by
  induction spans using List.reverseRecOn with
  | nil => simp [Progress.start]
  | append_singleton spans s ih =>
    rw [progress_concat, seen_add, List.mem_append, ih]
    simp only [List.mem_append, List.mem_singleton, or_and_right, exists_or, exists_eq_left]
    constructor
    · rintro (h | h | h)
      · exact .inr (.inr h)
      · exact .inl h
      · exact .inr (.inl h)
    · rintro (h | h | h)
      · exact .inr (.inl h)
      · exact .inr (.inr h)
      · exact .inl h

/-- The faults are those that the anchors have one by one, each after the anchors before it. -/
theorem mem_faults {s : Span} {f : Fault} : (s, f) ∈ (progress ix file spans).faults ↔
    ExistsAfter (fun before u => u = s ∧
      fault? ix file (progress ix file before).seen (topicOf u) = some f) spans := by
  induction spans using List.reverseRecOn with
  | nil => simp [Progress.start, ExistsAfter]
  | append_singleton spans u ih =>
    rw [progress_concat, faults_add, List.mem_append, ih, existsAfter_concat]
    apply or_congr_right
    simp only [Option.mem_toList, Option.map_eq_some_iff, Prod.mk.injEq]
    constructor
    · rintro ⟨f', hf, rfl, rfl⟩
      exact ⟨rfl, hf⟩
    · rintro ⟨rfl, hf⟩
      exact ⟨f, hf, rfl, rfl⟩

/-- Each anchor has at most one fault, and the faults come in the order of the anchors. -/
theorem faults_sublist (ix : Index) (file : String) (spans : List Span) :
    ((progress ix file spans).faults.map (·.1)).Sublist spans := by
  induction spans using List.reverseRecOn with
  | nil => exact List.nil_sublist _
  | append_singleton spans s ih =>
    rw [progress_concat, faults_add, List.map_append]
    refine ih.append ?_
    cases fault? ix file (progress ix file spans).seen (topicOf s) with
    | none => exact List.nil_sublist _
    | some f => exact List.Sublist.refl _

/-- The names that are present are the file's own and those of its sound anchors. -/
theorem mem_present : name ∈ (progress ix file spans).present ↔ name = file ∨
    ExistsAfter (fun before s => fault? ix file (progress ix file before).seen (topicOf s) = none ∧
      isReserved (topicOf s) = false ∧ name ∈ namesOf ix (topicOf s)) spans := by
  induction spans using List.reverseRecOn with
  | nil => simp [Progress.start, ExistsAfter]
  | append_singleton spans u ih =>
    rw [progress_concat, mem_present_add, ih, existsAfter_concat, or_assoc]

/-- A present name is the file's own or that of a sound anchor. -/
theorem of_mem_present (h : name ∈ (progress ix file spans).present) : name = file ∨
    ∃ s ∈ spans, ∃ seen, fault? ix file seen (topicOf s) = none ∧
      isReserved (topicOf s) = false ∧ name ∈ namesOf ix (topicOf s) := by
  rcases mem_present.mp h with h | ⟨before, s, after, rfl, hs⟩
  · exact .inl h
  · exact .inr ⟨s, by simp, _, hs⟩

theorem faults_concat_eq_nil_iff (s : Span) :
    (progress ix file (spans ++ [s])).faults = [] ↔ (progress ix file spans).faults = [] ∧
      fault? ix file (progress ix file spans).seen (topicOf s) = none := by
  rw [progress_concat, faults_add]
  simp

/-- The anchor names the topic and does not opt out. -/
def names (ix : Index) (t : Topic) (s : Span) : Bool :=
  decide (topicOf s ≠ noTopic ∧ ix.lookup (topicOf s) = some t)

/-- Without faults, every anchor that does not opt out names a topic of the file. -/
theorem exists_topic_of_faults_eq_nil (h : (progress ix file spans).faults = []) {s : Span}
    (hs : s ∈ spans) (hne : topicOf s ≠ noTopic) :
    ∃ t, ix.lookup (topicOf s) = some t ∧ t.file = file := by
  induction spans using List.reverseRecOn with
  | nil => simp at hs
  | append_singleton spans u ih =>
    obtain ⟨hspans, hu⟩ := (faults_concat_eq_nil_iff u).mp h
    rcases List.mem_append.mp hs with hs | hs
    · exact ih hspans hs
    · obtain rfl := List.mem_singleton.mp hs
      obtain ⟨-, -, heq | ⟨-, t, ht, hf, -⟩⟩ := fault?_eq_none_iff.mp hu
      · exact absurd heq hne
      · exact ⟨t, ht, hf⟩

/-- Without faults, no two anchors name one topic. -/
theorem countP_names_le_one (h : (progress ix file spans).faults = []) (t : Topic) :
    spans.countP (names ix t) ≤ 1 := by
  induction spans using List.reverseRecOn with
  | nil => simp
  | append_singleton spans s ih =>
    obtain ⟨hspans, hs⟩ := (faults_concat_eq_nil_iff s).mp h
    rw [List.countP_append, List.countP_singleton]
    split
    · next hn =>
      obtain ⟨hne, hl⟩ := of_decide_eq_true hn
      obtain ⟨-, -, heq | ⟨-, u, hu, -, -, hid⟩⟩ := fault?_eq_none_iff.mp hs
      · exact absurd heq hne
      obtain rfl := Option.some.inj (hl.symm.trans hu)
      have hzero : spans.countP (names ix t) = 0 := by
        refine List.countP_eq_zero.mpr fun v hv hvn => hid (mem_seen.mpr (.inr ⟨v, hv, ?_⟩))
        exact mem_namesOf.mpr (.inr ⟨t, (of_decide_eq_true hvn).2, rfl⟩)
      omega
    · exact ih hspans

theorem check_eq_nil_iff {cx : Context} {d : Document} :
    check cx d = [] ↔ (progress cx.index d.file d.anchors).faults = [] ∧
      ∀ t ∈ cx.index.topicsOf d.file,
        t.id ∈ (progress cx.index d.file d.anchors).present := by
  unfold check
  rw [List.append_eq_nil_iff, List.map_eq_nil_iff, List.map_eq_nil_iff, List.filter_eq_nil_iff]
  simp

/-- A topic of a file without findings has exactly one anchor, unless the file's name is its id. -/
theorem countP_names_eq_one {cx : Context} {d : Document}
    (hix : Index.Sound cx.index.files cx.index.topics) (h : check cx d = []) {t : Topic}
    (ht : t ∈ cx.index.topicsOf d.file) (hne : t.id ≠ d.file) :
    d.anchors.countP (names cx.index t) = 1 := by
  obtain ⟨hfaults, hpresent⟩ := check_eq_nil_iff.mp h
  have hle := countP_names_le_one hfaults t
  have hpos : 0 < d.anchors.countP (names cx.index t) := by
    rcases of_mem_present (hpresent t ht) with heq | ⟨s, hs, seen, -, hr, hn⟩
    · exact absurd heq hne
    have htop : topicOf s ≠ noTopic := fun heq => by
      rw [heq, isReserved_noTopic] at hr
      exact Bool.noConfusion hr
    have hid := ((Index.mem_topicsOf hix).mp ht).1
    have hl : cx.index.lookup (topicOf s) = some t := by
      rcases mem_namesOf.mp hn with heq | ⟨u, hu, heq⟩
      · rw [← heq]
        exact Index.lookup_of_find? hid
      · have hu' := Index.find?_id_of_lookup hix hu
        rw [heq, hid] at hu'
        rw [hu, hu']
    exact List.countP_pos_iff.mpr ⟨s, hs, decide_eq_true ⟨htop, hl⟩⟩
  omega

end HelpAudit.Anchor
