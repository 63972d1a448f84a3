import HelpAudit.Proofs.Rule.Anchor
import HelpAudit.Source.Memory

/-!
When a topic is both repeated and missing. An anchor counts as seen however badly its topic is
written, but only a sound one makes its topic present; so a file whose first anchor of a topic is
bad finds fault with every anchor of it, and misses the topic in the end.
-/
namespace HelpAudit.Anchor

open Markup (Span)

/-- The topic is written in a way that lets the rule look it up. -/
def isProper (topic : String) : Bool :=
  !hasHardSpace topic && !hasDoubleSpace topic.toList && !isReserved topic

/-- A finding says of an anchor that leads to the topic that the file has it already. -/
def SaysRepeated (cx : Context) (d : Document) (t : Topic) : Prop :=
  ∃ topic, cx.index.lookup topic = some t ∧
    ∃ x ∈ check cx d, x.message = (Fault.repeated topic).message

/-- A finding says of the topic that the file lacks it. -/
def SaysMissing (cx : Context) (d : Document) (t : Topic) : Prop :=
  ∃ x ∈ check cx d, x.message = missingMessage t.id d.file

/-- The first anchor that leads to the topic. -/
def first? (ix : Index) (t : Topic) (spans : List Span) : Option Span :=
  spans.find? fun s => decide (ix.lookup (topicOf s) = some t)

variable {ix : Index} {file name topic : String} {spans seen : List Span} {s : Span} {t : Topic}

theorem isProper_eq_true_iff : isProper topic = true ↔ hasHardSpace topic = false ∧
    hasDoubleSpace topic.toList = false ∧ isReserved topic = false := by
  simp [isProper, and_assoc]

section Messages

/-- The last two characters of a fault's message, from the end. -/
def Fault.ending : Fault → List Char
  | .hardSpace _ => ['s', 'b']
  | .doubleSpace _ => ['s', 'r']
  | .reserved _ => ['e', 's']
  | .unknown _ => ['x', 'e']
  | .elsewhere .. => [')', '\'']
  | .repeated _ => ['e', 'l']

theorem take_reverse_append {a b : String} {n : Nat} {ending : List Char}
    (h : n ≤ b.toList.length ∧ b.toList.reverse.take n = ending) :
    (a ++ b).toList.reverse.take n = ending := by
  rw [String.toList_append, List.reverse_append, List.take_append_of_le_length, h.2]
  simpa using h.1

theorem Fault.take_reverse_message (f : Fault) : f.message.toList.reverse.take 2 = f.ending := by
  cases f <;> exact take_reverse_append (by rw [ending]; decide +kernel)

/-- Only a repeated anchor is said to be one. -/
theorem Fault.message_eq_repeated_iff {f : Fault} :
    f.message = (Fault.repeated topic).message ↔ f = .repeated topic := by
  constructor
  case mpr =>
    rintro rfl
    rfl
  case mp =>
    intro h
    have hending : f.ending = (Fault.repeated topic).ending := by
      rw [← take_reverse_message, h, take_reverse_message]
    cases f with
    | repeated a =>
      have h : _ ++ a ++ _ = _ ++ topic ++ _ := h
      simpa using h
    | _ => simp [ending] at hending

theorem Fault.message_ne_missingMessage (f : Fault) : f.message ≠ missingMessage name file := by
  intro h
  have hend : (missingMessage name file).toList.reverse.take (min 1 2) = ['\''] :=
    take_reverse_append (by decide +kernel)
  rw [← h, ← List.take_take, take_reverse_message] at hend
  cases f <;> simp [ending] at hend

theorem missingMessage_inj {a b : String} :
    missingMessage a file = missingMessage b file ↔ a = b := by
  unfold missingMessage
  simp

end Messages

section Sound

variable (hix : Index.Sound ix.files ix.topics)
include hix

/-- The names of an anchor hold a topic's id when the anchor leads to the topic. -/
theorem id_mem_namesOf_iff (ht : ix.topics.find? t.id = some t) :
    t.id ∈ namesOf ix topic ↔ ix.lookup topic = some t := by
  rw [mem_namesOf]
  constructor
  · rintro (heq | ⟨u, hu, heq⟩)
    · rw [← heq]
      exact Index.lookup_of_find? ht
    · have hu' := Index.find?_id_of_lookup hix hu
      rw [heq, ht] at hu'
      rw [hu, hu']
  · intro h
    exact .inr ⟨t, h, rfl⟩

/-- A name has been seen with its topic: the topic that it leads to has had an anchor. -/
theorem lookup_of_mem_namesOf {other : String} (h : ix.lookup topic = some t)
    (hm : topic ∈ namesOf ix other) : ix.lookup other = some t := by
  rcases mem_namesOf.mp hm with rfl | ⟨u, hu, rfl⟩
  · exact h
  · have hu' := Index.lookup_of_find? (Index.find?_id_of_lookup hix hu)
    rw [hu, ← hu', h]

/-- What makes an anchor a repetition: its topic goes by the file's name, or had an anchor. -/
theorem seen_iff (h : ix.lookup topic = some t) :
    (topic ∈ (progress ix file spans).seen ∨ t.id ∈ (progress ix file spans).seen) ↔
      topic = file ∨ t.id = file ∨ ∃ s ∈ spans, ix.lookup (topicOf s) = some t := by
  have ht := Index.find?_id_of_lookup hix h
  rw [mem_seen, mem_seen]
  constructor
  · rintro ((heq | ⟨s, hs, hn⟩) | (heq | ⟨s, hs, hn⟩))
    · exact .inl heq
    · exact .inr (.inr ⟨s, hs, lookup_of_mem_namesOf hix h hn⟩)
    · exact .inr (.inl heq)
    · exact .inr (.inr ⟨s, hs, (id_mem_namesOf_iff hix ht).mp hn⟩)
  · rintro (heq | heq | ⟨s, hs, hl⟩)
    · exact .inl (.inl heq)
    · exact .inr (.inl heq)
    · exact .inr (.inr ⟨s, hs, (id_mem_namesOf_iff hix ht).mpr hl⟩)

/-- A sound anchor of a topic is its first one, is well written and is not the file's own name. -/
theorem sound_iff (ht : ix.topics.find? t.id = some t) (hf : t.file = file) (hne : t.id ≠ file) :
    (fault? ix file (progress ix file spans).seen topic = none ∧ isReserved topic = false ∧
        t.id ∈ namesOf ix topic) ↔
      ix.lookup topic = some t ∧ isProper topic = true ∧ topic ≠ file ∧
        ∀ s ∈ spans, ix.lookup (topicOf s) ≠ some t := by
  rw [fault?_eq_none_iff, id_mem_namesOf_iff hix ht, isProper_eq_true_iff]
  constructor
  · rintro ⟨⟨hhard, hdouble, hname⟩, hres, hl⟩
    obtain heq | ⟨-, u, hu, -, hseen⟩ := hname
    · rw [heq, isReserved_noTopic] at hres
      exact Bool.noConfusion hres
    obtain rfl := Option.some.inj (hl.symm.trans hu)
    have hnot := mt (seen_iff hix hl).mpr (not_or.mpr hseen)
    rw [not_or, not_or, not_exists] at hnot
    exact ⟨hl, ⟨hhard, hdouble, hres⟩, hnot.1, fun s hs h => hnot.2.2 s ⟨hs, h⟩⟩
  · rintro ⟨hl, ⟨hhard, hdouble, hres⟩, hown, hnone⟩
    have hseen : ¬ (topic ∈ (progress ix file spans).seen ∨
        t.id ∈ (progress ix file spans).seen) := by
      rw [seen_iff hix hl]
      rintro (h | h | ⟨s, hs, h⟩)
      · exact hown h
      · exact hne h
      · exact hnone s hs h
    exact ⟨⟨hhard, hdouble, .inr ⟨hres, t, hl, hf, not_or.mp hseen⟩⟩, hres, hl⟩

/-- A topic is present when its first anchor is well written. -/
theorem id_mem_present_iff (ht : ix.topics.find? t.id = some t) (hf : t.file = file)
    (hne : t.id ≠ file) : t.id ∈ (progress ix file spans).present ↔
      ∃ s, first? ix t spans = some s ∧ isProper (topicOf s) = true ∧ topicOf s ≠ file := by
  rw [mem_present, or_iff_right hne]
  constructor
  · rintro ⟨before, s, after, hspans, hsound⟩
    obtain ⟨hl, hp, hown, hnone⟩ := (sound_iff hix ht hf hne).mp hsound
    refine ⟨s, List.find?_eq_some_iff_append.mpr ?_, hp, hown⟩
    exact ⟨decide_eq_true hl, before, after, hspans, fun u hu => by simpa using hnone u hu⟩
  · rintro ⟨s, hfirst, hp, hown⟩
    obtain ⟨hl, before, after, hspans, hnone⟩ := List.find?_eq_some_iff_append.mp hfirst
    refine ⟨before, s, after, hspans, (sound_iff hix ht hf hne).mpr ?_⟩
    exact ⟨of_decide_eq_true hl, hp, hown, fun u hu => by simpa using hnone u hu⟩

end Sound

/-- An anchor is a repetition when it is well written and its topic, of this file, was seen. -/
theorem fault?_eq_repeated_iff {names : List String} {a : String} :
    fault? ix file names topic = some (.repeated a) ↔ topic = a ∧ isProper topic = true ∧
      ∃ t, ix.lookup topic = some t ∧ t.file = file ∧ (topic ∈ names ∨ t.id ∈ names) := by
  rw [isProper_eq_true_iff]
  unfold fault?
  split
  · next h => simp [h]
  · next hhard =>
    split
    · next h => simp [h]
    · next hdouble =>
      split
      · next hres =>
        split <;> simp [hres]
      · next hres =>
        cases hl : ix.lookup topic with
        | none => simp
        | some t =>
          by_cases hf : t.file = file
          · by_cases hs : topic ∈ names <;> by_cases hi : t.id ∈ names <;>
              simp [hf, hs, hi, hhard, hdouble, hres]
          · simp [hf]

variable {cx : Context} {d : Document}

theorem saysRepeated_iff : SaysRepeated cx d t ↔ ∃ topic s, cx.index.lookup topic = some t ∧
    (s, .repeated topic) ∈ (progress cx.index d.file d.anchors).faults := by
  constructor
  · rintro ⟨topic, hl, x, hx, hm⟩
    rcases List.mem_append.mp hx with hx | hx
    · obtain ⟨⟨s, f⟩, hsf, rfl⟩ := List.mem_map.mp hx
      obtain rfl := Fault.message_eq_repeated_iff.mp hm
      exact ⟨topic, s, hl, hsf⟩
    · obtain ⟨u, -, rfl⟩ := List.mem_map.mp hx
      exact absurd hm.symm (Fault.message_ne_missingMessage _)
  · rintro ⟨topic, s, hl, hsf⟩
    exact ⟨topic, hl, _, List.mem_append_left _ (List.mem_map.mpr ⟨_, hsf, rfl⟩), rfl⟩

theorem saysMissing_iff : SaysMissing cx d t ↔ ∃ u ∈ cx.index.topicsOf d.file, u.id = t.id ∧
    u.id ∉ (progress cx.index d.file d.anchors).present := by
  constructor
  · rintro ⟨x, hx, hm⟩
    rcases List.mem_append.mp hx with hx | hx
    · obtain ⟨f, -, rfl⟩ := List.mem_map.mp hx
      exact absurd hm (Fault.message_ne_missingMessage _)
    · obtain ⟨u, hu, rfl⟩ := List.mem_map.mp hx
      obtain ⟨hu, hnot⟩ := List.mem_filter.mp hu
      exact ⟨u, hu, missingMessage_inj.mp hm, by simpa using hnot⟩
  · rintro ⟨u, hu, hid, hnot⟩
    have hmem : u ∈ (cx.index.topicsOf d.file).filter
        fun t => !(progress cx.index d.file d.anchors).present.contains t.id :=
      List.mem_filter.mpr ⟨hu, by simpa using hnot⟩
    exact ⟨_, List.mem_append_right _ (List.mem_map.mpr ⟨u, hmem, rfl⟩), by rw [← hid]; rfl⟩

/-- Where a topic is missing, each well-written anchor that leads to it is a repetition. -/
theorem saysRepeated_of_not_mem_present (hix : Index.Sound cx.index.files cx.index.topics)
    (hf : t.file = d.file) (hne : t.id ≠ d.file)
    (hnot : t.id ∉ (progress cx.index d.file d.anchors).present) (hs : s ∈ d.anchors)
    (hl : cx.index.lookup (topicOf s) = some t) (hp : isProper (topicOf s) = true) :
    SaysRepeated cx d t := by
  have ht := Index.find?_id_of_lookup hix hl
  obtain ⟨before, after, hspans⟩ := List.append_of_mem hs
  -- An anchor of a topic that was not seen before it would be sound, and make the topic present.
  have hseen : topicOf s ∈ (progress cx.index d.file before).seen ∨
      t.id ∈ (progress cx.index d.file before).seen := by
    by_contra hseen
    rw [seen_iff hix hl, not_or, not_or, not_exists] at hseen
    have hfresh := (sound_iff hix ht hf hne).mpr
      ⟨hl, hp, hseen.1, fun u hu hlu => hseen.2.2 u ⟨hu, hlu⟩⟩
    exact hnot (mem_present.mpr (.inr ⟨before, s, after, hspans, hfresh⟩))
  refine saysRepeated_iff.mpr ⟨topicOf s, s, hl, mem_faults.mpr ⟨before, s, after, hspans, rfl, ?_⟩⟩
  exact fault?_eq_repeated_iff.mpr ⟨rfl, hp, t, hl, hf, hseen⟩

/-- A topic is said to be repeated and missing just when the first anchor that leads to it is badly
written, or is the file's name, and some anchor that leads to it is well written. -/
theorem repeated_and_missing_iff (cx : Context) (hix : cx.index.IsBuilt) (d : Document)
    (t : Topic) :
    (SaysRepeated cx d t ∧ SaysMissing cx d t) ↔
      t.file = d.file ∧ t.id ≠ d.file ∧
      (∃ s ∈ d.anchors, cx.index.lookup (topicOf s) = some t ∧ isProper (topicOf s) = true) ∧
      ∃ s, first? cx.index t d.anchors = some s ∧
        (isProper (topicOf s) = false ∨ topicOf s = d.file) := by
  have hsound := hix.sound
  constructor
  · rintro ⟨hrep, hmiss⟩
    obtain ⟨topic, s, hl, hmem⟩ := saysRepeated_iff.mp hrep
    obtain ⟨u, hu, hid, hnot⟩ := saysMissing_iff.mp hmiss
    have ht := Index.find?_id_of_lookup hsound hl
    obtain ⟨hfind, hf⟩ := (Index.mem_topicsOf hsound).mp hu
    rw [hid, ht] at hfind
    obtain rfl := Option.some.inj hfind
    obtain ⟨before, s, after, hspans, rfl, hfault⟩ := mem_faults.mp hmem
    obtain ⟨rfl, hp, -⟩ := fault?_eq_repeated_iff.mp hfault
    have hs : s ∈ d.anchors := by simp [hspans]
    have hne : t.id ≠ d.file := fun heq => hnot (mem_present.mpr (.inl heq))
    obtain ⟨h, hfirst⟩ : ∃ h, first? cx.index t d.anchors = some h :=
      Option.isSome_iff_exists.mp (List.find?_isSome.mpr ⟨s, hs, decide_eq_true hl⟩)
    refine ⟨hf, hne, ⟨s, hs, hl, hp⟩, h, hfirst, ?_⟩
    by_contra hgood
    rw [not_or, Bool.not_eq_false] at hgood
    exact hnot ((id_mem_present_iff hsound ht hf hne).mpr ⟨h, hfirst, hgood⟩)
  · rintro ⟨hf, hne, ⟨s, hs, hl, hp⟩, h, hfirst, hbad⟩
    have ht := Index.find?_id_of_lookup hsound hl
    have hnot : t.id ∉ (progress cx.index d.file d.anchors).present := by
      rw [id_mem_present_iff hsound ht hf hne]
      rintro ⟨h', hfirst', hp', hown'⟩
      obtain rfl := Option.some.inj (hfirst.symm.trans hfirst')
      rcases hbad with hbad | hbad
      · exact Bool.noConfusion (hbad.symm.trans hp')
      · exact hown' hbad
    refine ⟨saysRepeated_of_not_mem_present hsound hf hne hnot hs hl hp, ?_⟩
    exact saysMissing_iff.mpr ⟨t, (Index.mem_topicsOf hsound).mpr ⟨ht, hf⟩, rfl, hnot⟩

/-- The alias holds two blanks in a row. -/
def section₁ : Topic := ⟨"sec1", "a.txt", "Section", ["sec  1"]⟩

def oneSection : Context where
  index := ((Draft.start "Docs" "Docs/help").declareAll [.file "a.txt" "A", .topic section₁]).build
  catalog := .empty
  source := (Memory.ofList []).source

/-- The file names the topic by its alias and then by its id. -/
def twoNames : Document := .scan .help "a.txt" "*sec  1* *sec1*"

theorem twoNames_repeated_and_missing : oneSection.index.IsBuilt ∧
    first? oneSection.index section₁ twoNames.anchors = some ⟨0, "sec  1"⟩ ∧
    isProper "sec  1" = false ∧
    SaysRepeated oneSection twoNames section₁ ∧ SaysMissing oneSection twoNames section₁ := by
  have hix : oneSection.index.IsBuilt := ⟨_, _, _, rfl⟩
  have hfirst : first? oneSection.index section₁ twoNames.anchors = some ⟨0, "sec  1"⟩ := by
    decide +kernel
  have hbad : isProper "sec  1" = false := by decide +kernel
  have hgood : ∃ s ∈ twoNames.anchors, oneSection.index.lookup (topicOf s) = some section₁ ∧
      isProper (topicOf s) = true := by decide +kernel
  exact ⟨hix, hfirst, hbad, (repeated_and_missing_iff oneSection hix twoNames section₁).mpr
    ⟨rfl, by decide, hgood, _, hfirst, .inl hbad⟩⟩

/-- Some file is said to have a topic already and to lack it. -/
theorem not_repeated_or_not_missing : ¬ ∀ (cx : Context) (file text : String) (t : Topic),
    cx.index.IsBuilt → ¬ (SaysRepeated cx (.scan .help file text) t ∧
      SaysMissing cx (.scan .help file text) t) := by
  intro h
  apply h oneSection "a.txt" "*sec  1* *sec1*" section₁ ⟨_, _, _, rfl⟩
  constructor
  · exact ⟨"sec1", by decide +kernel, by decide +kernel⟩
  · change ∃ x ∈ check _ _, _
    decide +kernel

end HelpAudit.Anchor
