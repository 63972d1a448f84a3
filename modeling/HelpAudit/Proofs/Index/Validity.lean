import HelpAudit.Index.Load
import HelpAudit.Proofs.Sequence
import Mathlib.Tactic.MkIffOfInductiveProp

/-!
What a manifest must hold to be loaded. Every check stops at the first offender, so each is
described twice without running it: by what passes, and by what it says about which offender. The
descriptions are put together as the checks are, from the members of a topic entry to the whole
manifest.
-/
namespace HelpAudit.Index

section Judging

variable {ε α β σ : Type}

/-- What a check finds: nothing when all is as it should be, and else a fault that is there. -/
structure Judges (found : Option ε) (fits : Prop) (offends : ε → Prop) : Prop where
  passes : found = none ↔ fits
  names : ∀ e, found = some e ↔ offends e

/-- What a reader refuses its input for. -/
def refusal? : Except ε α → Option ε
  | .ok _ => none
  | .error e => some e

/-- The first item that does not fit has the fault. -/
def FirstOffends (fits : α → Prop) (offends : α → ε → Prop) (xs : List α) (e : ε) : Prop :=
  ExistsAfter (fun before x => (∀ y ∈ before, fits y) ∧ offends x e) xs

variable {fits : α → Prop} {offends : α → ε → Prop} {P Q : Prop} {O R : ε → Prop}
  {found more : Option ε}

@[simp] theorem refusal?_map (f : α → β) (r : Except ε α) : refusal? (r.map f) = refusal? r := by
  cases r <;> rfl

@[simp] theorem refusal?_ok (a : α) : refusal? (.ok a : Except ε α) = none := rfl

@[simp] theorem refusal?_error (e : ε) : refusal? (.error e : Except ε α) = some e := rfl

@[simp] theorem refusal?_ok_bind (a : α) (f : α → Except ε β) :
    refusal? (Except.ok a >>= f) = refusal? (f a) := rfl

@[simp] theorem refusal?_error_bind (e : ε) (f : α → Except ε β) :
    refusal? (Except.error e >>= f) = some e := rfl

theorem refusal?_eq_none {r : Except ε α} : refusal? r = none ↔ ∃ a, r = .ok a := by
  cases r <;> simp

theorem refusal?_eq_some {r : Except ε α} {e : ε} : refusal? r = some e ↔ r = .error e := by
  cases r <;> simp

theorem firstOffends_cons {x : α} {xs : List α} {e : ε} : FirstOffends fits offends (x :: xs) e ↔
    offends x e ∨ fits x ∧ FirstOffends fits offends xs e := by
  unfold FirstOffends
  rw [existsAfter_cons]
  constructor
  · rintro (⟨-, hx⟩ | ⟨before, y, after, rfl, hfits, hy⟩)
    · exact .inl hx
    · obtain ⟨hx, hbefore⟩ := List.forall_mem_cons.mp hfits
      exact .inr ⟨hx, before, y, after, rfl, hbefore, hy⟩
  · rintro (hx | ⟨hx, before, y, after, rfl, hbefore, hy⟩)
    · exact .inl ⟨List.forall_mem_nil fits, hx⟩
    · exact .inr ⟨before, y, after, rfl, List.forall_mem_cons.mpr ⟨hx, hbefore⟩, hy⟩

namespace Judges

theorem congr {P' : Prop} {O' : ε → Prop} (h : Judges found P O) (hfits : P ↔ P')
    (hoffends : ∀ e, O e ↔ O' e) : Judges found P' O' :=
  ⟨h.passes.trans hfits, fun e => (h.names e).trans (hoffends e)⟩

theorem accepts (hfits : P) (hoffends : ∀ e, ¬O e) : Judges none P O where
  passes := by simp [hfits]
  names e := by simp [hoffends]

theorem refuses {e : ε} (hfits : ¬P) (hoffends : ∀ f, O f ↔ f = e) : Judges (some e) P O where
  passes := by simp [hfits]
  names f := by rw [hoffends, Option.some_inj, eq_comm]

theorem map {γ : Type} (h : Judges found P O) (f : ε → γ) :
    Judges (found.map f) P (fun e => ∃ x, e = f x ∧ O x) where
  passes := by rw [Option.map_eq_none_iff, h.passes]
  names e := by
    rw [Option.map_eq_some_iff]
    simp only [h.names, and_comm, eq_comm]

/-- There is nothing to find in no items. -/
theorem nil : Judges none (∀ x ∈ ([] : List α), fits x) (FirstOffends fits offends []) where
  passes := by simp
  names e := by simp [FirstOffends, not_existsAfter_nil]

/-- A second check counts when the first one finds nothing. -/
theorem or (h : Judges found P O) (hmore : found = none → Judges more Q R) :
    Judges (found.or more) (P ∧ Q) (fun e => O e ∨ P ∧ R e) := by
  cases hfound : found with
  | none =>
    have hnone := hmore hfound
    have hP := h.passes.mp hfound
    have hO (e : ε) : ¬O e := fun he => by cases hfound.symm.trans ((h.names e).mpr he)
    refine ⟨?_, fun e => ?_⟩
    · rw [Option.none_or, hnone.passes]
      simp [hP]
    · rw [Option.none_or, hnone.names]
      simp [hP, hO]
  | some f =>
    have hP : ¬P := fun hP => by cases hfound.symm.trans (h.passes.mpr hP)
    refine ⟨by simp [hP], fun e => ?_⟩
    rw [Option.some_or, ← hfound, h.names]
    simp [hP]

theorem cons {x : α} {xs : List α} (h : Judges found (fits x) (offends x))
    (hmore : found = none → Judges more (∀ y ∈ xs, fits y) (FirstOffends fits offends xs)) :
    Judges (found.or more) (∀ y ∈ x :: xs, fits y) (FirstOffends fits offends (x :: xs)) :=
  (h.or hmore).congr List.forall_mem_cons.symm fun _ => firstOffends_cons.symm

theorem bind {r : Except ε α} {f : α → Except ε β} (h : Judges (refusal? r) P O)
    (hf : ∀ a, r = .ok a → Judges (refusal? (f a)) Q R) :
    Judges (refusal? (r >>= f)) (P ∧ Q) (fun e => O e ∨ P ∧ R e) := by
  cases r with
  | ok a => exact h.or fun _ => hf a rfl
  | error e =>
    have hnever : refusal? (.error e : Except ε α) = none → Judges (none : Option ε) Q R := by
      intro hnone
      cases hnone
    exact h.or hnever

/-- Items that are read one after the other are judged each on its own. -/
theorem foldlM {f : σ → α → Except ε σ}
    (h : ∀ s x, Judges (refusal? (f s x)) (fits x) (offends x)) (xs : List α) (s : σ) :
    Judges (refusal? (xs.foldlM f s)) (∀ x ∈ xs, fits x) (FirstOffends fits offends xs) := by
  induction xs generalizing s with
  | nil => exact nil
  | cons x xs ih =>
    rw [List.foldlM_cons]
    exact ((h s x).bind fun s' _ => ih s').congr List.forall_mem_cons.symm
      fun _ => firstOffends_cons.symm

theorem mapM {f : α → Except ε β} (h : ∀ x, Judges (refusal? (f x)) (fits x) (offends x))
    (xs : List α) :
    Judges (refusal? (xs.mapM f)) (∀ x ∈ xs, fits x) (FirstOffends fits offends xs) := by
  induction xs with
  | nil => exact nil
  | cons x xs ih =>
    have hcons : refusal? ((x :: xs).mapM f) = refusal? (f x >>= fun _ => xs.mapM f) := by
      rw [List.mapM_cons]
      cases f x with
      | ok b => cases xs.mapM f <;> rfl
      | error e => rfl
    rw [hcons]
    exact ((h x).bind fun _ _ => ih).congr List.forall_mem_cons.symm
      fun _ => firstOffends_cons.symm

end Judges

end Judging

section TopicEntry

/-- What the members of a topic entry may hold. -/
inductive MemberKind where
  | text
  | optionalText
  | texts

namespace MemberKind

def Fits : MemberKind → Json → Prop
  | .text, v => ∃ s, v = .string s
  | .optionalText, v => v = .null ∨ ∃ s, v = .string s
  | .texts, v => ∃ items, v = .array items ∧ ∀ item ∈ items, ∃ s, item = .string s

/-- Another value stands where a text must. -/
def NoText (v : Json) (e : EntryFault) : Prop := (∀ s, v ≠ .string s) ∧ e = .wrongKind v .string

def Offends : MemberKind → Json → EntryFault → Prop
  | .text, v, e => NoText v e
  | .optionalText, v, e => v ≠ .null ∧ NoText v e
  | .texts, .array items, e => FirstOffends text.Fits NoText items e
  | .texts, v, e => e = .wrongKind v .sequence

theorem judges_text (v : Json) :
    Judges (refusal? (TopicEntry.text v)) (text.Fits v) (NoText v) := by
  cases v <;> constructor <;> simp [TopicEntry.text, Fits, NoText, eq_comm]

theorem judges_optionalText (v : Json) : Judges (refusal? (TopicEntry.optionalText v))
    (optionalText.Fits v) (optionalText.Offends v) := by
  cases v <;> constructor <;>
    simp [TopicEntry.optionalText, TopicEntry.text, Except.map, Fits, Offends, NoText,
      eq_comm]

theorem judges_texts (v : Json) :
    Judges (refusal? (TopicEntry.texts v)) (texts.Fits v) (texts.Offends v) := by
  cases v with
  | array items =>
    refine (Judges.mapM judges_text items).congr ?_ fun e => Iff.rfl
    simp [Fits]
  | _ => constructor <;> simp [TopicEntry.texts, Fits, Offends, eq_comm]

end MemberKind

/-- The names that count, and what stands under them. -/
def kindOf? : String → Option MemberKind
  | "topic" => some .text
  | "caption" => some .optionalText
  | "aliases" => some .texts
  | _ => none

def MemberFits (m : String × Json) : Prop := ∀ kind, kindOf? m.1 = some kind → kind.Fits m.2

def MemberOffends (m : String × Json) (e : EntryFault) : Prop :=
  ∃ kind, kindOf? m.1 = some kind ∧ kind.Offends m.2 e

/-- The members of a topic entry, in the order in which they are looked at. An array has them by
position. -/
def entryMembers : Json → List (String × Json)
  | .object members => Json.distinct members
  | .array items => ["topic", "caption", "aliases"].zip items
  | _ => []

/-- What is wrong with an entry when its members are all right. -/
def shapeFault? : Json → Option EntryFault
  | .object members =>
    if (Json.distinct members).any (·.1 == "topic") then none else some .noTopic
  | .array [] => some .emptyList
  | .array items => if 3 < items.length then some (.longList items.length) else none
  | v => some (.wrongKind v .topicEntry)

/-- An object with a topic, or an array of up to three members that starts with a topic. -/
inductive HasEntryShape : Json → Prop where
  | object {members : List (String × Json)} (h : ∃ m ∈ Json.distinct members, m.1 = "topic") :
      HasEntryShape (.object members)
  | array {items : List Json} (hne : items ≠ []) (h : items.length ≤ 3) :
      HasEntryShape (.array items)

inductive ShapeOffends : Json → EntryFault → Prop where
  | noTopic {members : List (String × Json)} (h : ∀ m ∈ Json.distinct members, m.1 ≠ "topic") :
      ShapeOffends (.object members) .noTopic
  | emptyList : ShapeOffends (.array []) .emptyList
  | longList {items : List Json} (h : 3 < items.length) :
      ShapeOffends (.array items) (.longList items.length)
  | noEntry {v : Json} (hobject : ∀ members, v ≠ .object members)
      (harray : ∀ items, v ≠ .array items) : ShapeOffends v (.wrongKind v .topicEntry)

structure IsTopicEntry (v : Json) : Prop where
  members : ∀ m ∈ entryMembers v, MemberFits m
  shape : HasEntryShape v

/-- The first member that is wrong is at fault, or else the entry as a whole. -/
inductive EntryOffends (v : Json) (e : EntryFault) : Prop where
  | member (h : FirstOffends MemberFits MemberOffends (entryMembers v) e)
  | shape (hmembers : ∀ m ∈ entryMembers v, MemberFits m) (h : ShapeOffends v e)

theorem judges_objectShape (members : List (String × Json)) :
    Judges (shapeFault? (.object members)) (HasEntryShape (.object members))
      (ShapeOffends (.object members)) := by
  have hany : (Json.distinct members).any (·.1 == "topic") = true ↔
      ∃ m ∈ Json.distinct members, m.1 = "topic" := by simp
  rw [shapeFault?]
  split
  · next h =>
    obtain ⟨m, hm, hname⟩ := hany.mp h
    refine Judges.accepts (.object ⟨m, hm, hname⟩) ?_
    rintro e (hnone | _ | _ | ⟨hobject, -⟩)
    · exact hnone m hm hname
    · exact hobject members rfl
  · next h =>
    have hnone : ∀ m ∈ Json.distinct members, m.1 ≠ "topic" := fun m hm hname =>
      h (hany.mpr ⟨m, hm, hname⟩)
    refine Judges.refuses ?_ fun e => ⟨?_, ?_⟩
    · rintro ⟨m, hm, hname⟩
      exact hnone m hm hname
    · rintro (_ | _ | _ | ⟨hobject, -⟩)
      · rfl
      · exact absurd rfl (hobject members)
    · rintro rfl
      exact .noTopic hnone

theorem judges_arrayShape (items : List Json) :
    Judges (shapeFault? (.array items)) (HasEntryShape (.array items))
      (ShapeOffends (.array items)) := by
  cases items with
  | nil =>
    refine Judges.refuses ?_ fun e => ⟨?_, ?_⟩
    · rintro (_ | ⟨hne, -⟩)
      exact hne rfl
    · rintro (_ | _ | h | ⟨-, harray⟩)
      · rfl
      · cases h
      · exact absurd rfl (harray [])
    · rintro rfl
      exact .emptyList
  | cons t items =>
    have hne := List.cons_ne_nil t items
    show Judges (if 3 < (t :: items).length then some (EntryFault.longList (t :: items).length)
      else none) _ _
    split
    · next hlong =>
      refine Judges.refuses ?_ fun e => ⟨?_, ?_⟩
      · rintro (_ | ⟨-, h⟩)
        omega
      · rintro (_ | _ | _ | ⟨-, harray⟩)
        · rfl
        · exact absurd rfl (harray _)
      · rintro rfl
        exact .longList hlong
    · next hshort =>
      refine Judges.accepts (.array hne (by omega)) ?_
      rintro e (_ | _ | h | ⟨-, harray⟩)
      · omega
      · exact harray _ rfl

theorem judges_shape (v : Json) : Judges (shapeFault? v) (HasEntryShape v) (ShapeOffends v) := by
  cases v with
  | object members => exact judges_objectShape members
  | array items => exact judges_arrayShape items
  | _ =>
    refine Judges.refuses (by rintro ⟨⟩) fun e => ⟨?_, ?_⟩
    · rintro ⟨⟩
      rfl
    · rintro rfl
      exact .noEntry (by simp) (by simp)

theorem Judges.member {found : Option EntryFault} {name : String} {kind : MemberKind} {v : Json}
    (h : Judges found (kind.Fits v) (kind.Offends v)) (hkind : kindOf? name = some kind) :
    Judges found (MemberFits (name, v)) (MemberOffends (name, v)) := by
  refine h.congr ⟨fun hfits k hk => ?_, fun hfits => hfits kind hkind⟩ fun e =>
    ⟨fun hoffends => ⟨kind, hkind, hoffends⟩, ?_⟩
  · cases hkind.symm.trans hk
    exact hfits
  · rintro ⟨k, hk, hoffends⟩
    cases hkind.symm.trans hk
    exact hoffends

/-- A reader that looks at the members and then at the shape finds what is wrong with an entry. -/
theorem Judges.entry {file : String} {v : Json} {found : Option EntryFault}
    (hread : refusal? (TopicEntry.read file v) = found.or (shapeFault? v))
    (h : Judges found (∀ m ∈ entryMembers v, MemberFits m)
      (FirstOffends MemberFits MemberOffends (entryMembers v))) :
    Judges (refusal? (TopicEntry.read file v)) (IsTopicEntry v) (EntryOffends v) := by
  rw [hread]
  refine (h.or fun _ => judges_shape v).congr ⟨fun ⟨hm, hs⟩ => ⟨hm, hs⟩, fun hv => ⟨hv.1, hv.2⟩⟩
    fun e => ⟨?_, ?_⟩
  · rintro (hm | ⟨hm, hs⟩)
    · exact .member hm
    · exact .shape hm hs
  · rintro (hm | ⟨hm, hs⟩)
    · exact .inl hm
    · exact .inr ⟨hm, hs⟩

theorem judges_member (p : TopicEntry.Parts) (m : String × Json) :
    Judges (refusal? (p.read m)) (MemberFits m) (MemberOffends m) := by
  obtain ⟨name, v⟩ := m
  unfold TopicEntry.Parts.read
  dsimp only
  split
  · next h =>
    rw [refusal?_map, h]
    exact (MemberKind.judges_text v).member rfl
  · split
    · next h =>
      rw [refusal?_map, h]
      exact (MemberKind.judges_optionalText v).member rfl
    · split
      · next h =>
        rw [refusal?_map, h]
        exact (MemberKind.judges_texts v).member rfl
      · next htopic hcaption haliases =>
        -- Under any other name everything passes.
        have hnone : kindOf? name = none := by
          unfold kindOf?
          split <;> trivial
        constructor <;> simp [MemberFits, MemberOffends, hnone]

/-- A topic is known as soon as one was read. -/
theorem topic_read {p q : TopicEntry.Parts} {m : String × Json} (h : p.read m = .ok q) :
    q.topic.isSome = (p.topic.isSome || m.1 == "topic") := by
  have hmap {α : Type} {r : Except EntryFault α} {f : α → TopicEntry.Parts}
      (h : r.map f = .ok q) : ∃ a, f a = q := by
    cases r with
    | ok a => exact ⟨a, Except.ok.inj h⟩
    | error e => cases h
  unfold TopicEntry.Parts.read at h
  split at h
  · next hname =>
    obtain ⟨t, rfl⟩ := hmap h
    simp [hname]
  · next hname =>
    have hother : q.topic = p.topic := by
      split at h
      · obtain ⟨c, rfl⟩ := hmap h
        rfl
      · split at h
        · obtain ⟨a, rfl⟩ := hmap h
          rfl
        · cases h
          rfl
    simp [hother, hname]

theorem topic_foldlM_read {ms : List (String × Json)} {p q : TopicEntry.Parts}
    (h : ms.foldlM TopicEntry.Parts.read p = .ok q) :
    q.topic.isSome = (p.topic.isSome || ms.any (·.1 == "topic")) := by
  induction ms generalizing p with
  | nil =>
    cases h
    simp
  | cons m ms ih =>
    rw [List.foldlM_cons] at h
    cases hm : p.read m with
    | error e =>
      rw [hm] at h
      cases h
    | ok r =>
      rw [hm] at h
      rw [ih h, topic_read hm, List.any_cons, Bool.or_assoc]

/-- In an array, each position is read as the member that it stands for. -/
theorem judges_readArray (file : String) (t : Json) (items : List Json) :
    Judges (refusal? (TopicEntry.read file (.array (t :: items))))
      (IsTopicEntry (.array (t :: items))) (EntryOffends (.array (t :: items))) := by
  have htopic := (MemberKind.judges_text t).member (show kindOf? "topic" = _ from rfl)
  have hcaption (c : Json) :=
    (MemberKind.judges_optionalText c).member (show kindOf? "caption" = _ from rfl)
  have haliases (a : Json) :=
    (MemberKind.judges_texts a).member (show kindOf? "aliases" = _ from rfl)
  match items with
  | [] =>
    apply Judges.entry _ (htopic.cons fun _ => Judges.nil)
    rw [TopicEntry.read]
    cases TopicEntry.text t <;> rfl
  | [c] =>
    apply Judges.entry _ (htopic.cons fun _ => (hcaption c).cons fun _ => Judges.nil)
    rw [TopicEntry.read]
    cases TopicEntry.text t with
    | error e => rfl
    | ok id =>
      cases hc : TopicEntry.optionalText c with
      | error e => simp [hc]
      | ok caption => simp [hc, shapeFault?, pure, Except.pure]
  | c :: a :: rest =>
    apply Judges.entry _
      (htopic.cons fun _ => (hcaption c).cons fun _ => (haliases a).cons fun _ => Judges.nil)
    rw [TopicEntry.read]
    cases TopicEntry.text t with
    | error e => rfl
    | ok id =>
      cases hc : TopicEntry.optionalText c with
      | error e => simp [hc]
      | ok caption =>
        cases ha : TopicEntry.texts a with
        | error e => simp [hc, ha]
        | ok aliases => cases rest <;> simp [hc, ha, shapeFault?, pure, Except.pure]

/-- The reader of topic entries finds what is wrong with them. -/
theorem judges_read (file : String) (v : Json) :
    Judges (refusal? (TopicEntry.read file v)) (IsTopicEntry v) (EntryOffends v) := by
  cases v with
  | object members =>
    apply Judges.entry _ (Judges.foldlM judges_member (Json.distinct members) ⟨none, none, none⟩)
    rw [TopicEntry.read]
    cases hparts : (Json.distinct members).foldlM TopicEntry.Parts.read ⟨none, none, none⟩ with
    | error e => rfl
    | ok parts =>
      have hany : (Json.distinct members).any (·.1 == "topic") = parts.topic.isSome :=
        (topic_foldlM_read hparts).symm
      rw [shapeFault?, hany, refusal?_ok_bind]
      cases parts.topic <;> rfl
  | array items =>
    cases items with
    | nil => exact Judges.entry rfl Judges.nil
    | cons t items => exact judges_readArray file t items
  | _ => exact Judges.entry rfl Judges.nil

end TopicEntry

section FileEntry

/-- An array of a title and topic entries. -/
def IsFileEntry (v : Json) : Prop :=
  ∃ title items, v = .array (.string title :: items) ∧ ∀ item ∈ items, IsTopicEntry item

/-- What is looked at first is at fault first: the array, then its title, then the topics. -/
inductive FileEntryOffends (file : String) : Json → Fault → Prop where
  | notArray {v : Json} (h : ∀ items, v ≠ .array items) :
      FileEntryOffends file v (.notArray file)
  | noTitle {items : List Json} (h : ∀ title, items.head? ≠ some (.string title)) :
      FileEntryOffends file (.array items) (.noTitle file)
  | badEntry {title : String} {items : List Json} {e : EntryFault}
      (h : FirstOffends IsTopicEntry EntryOffends items e) :
      FileEntryOffends file (.array (.string title :: items)) (.badEntry file e)

theorem judges_topicDeclarations (file : String) (items : List Json) :
    Judges (topicDeclarations file items).2 (∀ item ∈ items, IsTopicEntry item)
      (fun fault => ∃ e, fault = .badEntry file e ∧
        FirstOffends IsTopicEntry EntryOffends items e) := by
  have hfound : (topicDeclarations file items).2 =
      (refusal? (items.mapM (TopicEntry.read file))).map (.badEntry file) := by
    induction items with
    | nil => rfl
    | cons v items ih =>
      rw [topicDeclarations, List.mapM_cons]
      cases TopicEntry.read file v with
      | error e => rfl
      | ok t =>
        dsimp only
        rw [ih]
        cases items.mapM (TopicEntry.read file) <;> rfl
  rw [hfound]
  exact (Judges.mapM (judges_read file) items).map _

theorem judges_fileDeclarations (file : String) (v : Json) :
    Judges (fileDeclarations file v).2 (IsFileEntry v) (FileEntryOffends file v) := by
  unfold fileDeclarations
  split
  · next title items =>
    refine (judges_topicDeclarations file items).congr ⟨fun h => ⟨title, items, rfl, h⟩, ?_⟩
      fun fault => ⟨?_, ?_⟩
    · rintro ⟨_, _, heq, h⟩
      cases heq
      exact h
    · rintro ⟨e, rfl, h⟩
      exact .badEntry h
    · rintro (h | h | h)
      · exact absurd rfl (h _)
      · exact absurd rfl (h title)
      · exact ⟨_, rfl, h⟩
  · next items htitle =>
    have hhead : ∀ title, items.head? ≠ some (.string title) := by
      intro title hhead
      obtain ⟨rest, rfl⟩ := List.head?_eq_some_iff.mp hhead
      exact htitle title rest rfl
    refine Judges.refuses ?_ fun fault => ⟨?_, ?_⟩
    · rintro ⟨title, rest, heq, -⟩
      cases heq
      exact hhead title rfl
    · rintro (h | h | h)
      · exact absurd rfl (h items)
      · rfl
      · exact absurd rfl (hhead _)
    · rintro rfl
      exact .noTitle hhead
  · next htitled harray =>
    refine Judges.refuses ?_ fun fault => ⟨?_, ?_⟩
    · rintro ⟨title, items, rfl, -⟩
      exact harray _ rfl
    · rintro (h | h | h)
      · rfl
      · exact absurd rfl (harray _)
      · exact absurd rfl (harray _)
    · rintro rfl
      exact .notArray harray

theorem judges_declarations (files : List (String × Json)) :
    Judges (declarations files).2 (∀ f ∈ files, IsFileEntry f.2)
      (FirstOffends (fun f => IsFileEntry f.2) (fun f => FileEntryOffends f.1 f.2) files) := by
  induction files with
  | nil => exact Judges.nil
  | cons f files ih =>
    obtain ⟨file, v⟩ := f
    have hfound : (declarations ((file, v) :: files)).2 =
        (fileDeclarations file v).2.or (declarations files).2 := by
      rw [declarations]
      rcases fileDeclarations file v with ⟨ds, _ | fault⟩ <;> rfl
    rw [hfound]
    exact Judges.cons (judges_fileDeclarations file v) fun _ => ih

end FileEntry

namespace Manifest

variable {m : Manifest}

/-- A package has a name, and all files have proper entries. -/
@[mk_iff]
structure IsValid (m : Manifest) : Prop where
  package : Text.allBlank m.package.toList = false
  files : ∀ f ∈ m.files, IsFileEntry f.2

/-- The name of the package is looked at before the files are, in their order. -/
inductive Offends (m : Manifest) (fault : Fault) : Prop where
  | package (h : Text.allBlank m.package.toList = true) (hfault : fault = .blankPackage)
  | file (hpackage : Text.allBlank m.package.toList = false)
      (h : FirstOffends (fun f => IsFileEntry f.2) (fun f => FileEntryOffends f.1 f.2) m.files
        fault)

theorem not_isValid_iff :
    ¬m.IsValid ↔ Text.allBlank m.package.toList = true ∨ ∃ f ∈ m.files, ¬IsFileEntry f.2 := by
  rw [isValid_iff, not_and_or, Bool.not_eq_false]
  simp only [not_forall, exists_prop]

def fault? (m : Manifest) : Option Fault :=
  if Text.allBlank m.package.toList then some .blankPackage else (declarations m.files).2

theorem judges_fault? (m : Manifest) : Judges m.fault? m.IsValid m.Offends := by
  rw [fault?]
  split
  · next hblank =>
    refine Judges.refuses (fun h => ?_) fun fault => ⟨?_, fun hfault => .package hblank hfault⟩
    · cases hblank.symm.trans h.package
    · rintro (⟨-, hfault⟩ | ⟨hpackage, -⟩)
      · exact hfault
      · cases hblank.symm.trans hpackage
  · next hpackage =>
    rw [Bool.not_eq_true] at hpackage
    refine (judges_declarations m.files).congr ⟨fun h => ⟨hpackage, h⟩, fun h => h.files⟩
      fun fault => ⟨fun h => .file hpackage h, ?_⟩
    rintro (⟨hblank, -⟩ | ⟨-, h⟩)
    · cases hblank.symm.trans hpackage
    · exact h

end Manifest

variable {text location : String} {m : Manifest}

theorem refusal?_load (hm : Manifest.parse? text = some m) :
    refusal? (load text location).value =
      m.fault?.map (LoadError.invalid (Resource.normalize location)) := by
  unfold load
  rw [hm, Manifest.fault?]
  dsimp only
  split
  · rfl
  · cases (declarations m.files).2 <;> rfl

/-- A manifest loads unless its package has a blank name or a file has no proper entry. The load
then fails for the name, or else for the first such file. -/
theorem load_names_offender (hm : Manifest.parse? text = some m) :
    let outcome := (load text location).value
    ((∃ fault, outcome = .error (.invalid (Resource.normalize location) fault)) ↔
      Text.allBlank m.package.toList = true ∨ ∃ f ∈ m.files, ¬IsFileEntry f.2) ∧
    (∀ e, outcome = .error e ↔
      ∃ fault, e = .invalid (Resource.normalize location) fault ∧ m.Offends fault) ∧
    ((∃ ix, outcome = .ok ix) ↔ m.IsValid) := by
  intro outcome
  have h := m.judges_fault?.map (LoadError.invalid (Resource.normalize location))
  rw [← refusal?_load hm] at h
  have herror (e : LoadError) := refusal?_eq_some.symm.trans (h.names e)
  have hok := refusal?_eq_none.symm.trans h.passes
  refine ⟨?_, herror, hok⟩
  rw [← Manifest.not_isValid_iff, ← hok]
  constructor
  · rintro ⟨fault, hfault⟩ ⟨ix, hix⟩
    cases hfault.symm.trans hix
  · intro hnot
    cases houtcome : outcome with
    | ok ix => exact absurd ⟨ix, houtcome⟩ hnot
    | error e =>
      obtain ⟨fault, rfl, -⟩ := (herror e).mp houtcome
      exact ⟨fault, rfl⟩

/-- A manifest with two files that are not as they should be. -/
def mistypedText : String :=
  "\x7b\"package\":\"Docs\",\"help_files\":\x7b"
    ++ "\"a.txt\":[\"A\",[\"x\",null,[\"y\"]],\x7b\"topic\":\"z\"\x7d],"
    ++ "\"b.txt\":[\"B\",\x7b\"topic\":\"u\",\"caption\":7\x7d],"
    ++ "\"c.txt\":\"C\"\x7d\x7d"

/-- The first of them counts. -/
theorem mistypedText_load_names_offender :
    ∃ m, Manifest.parse? mistypedText = some m ∧ (∃ f ∈ m.files, ¬IsFileEntry f.2) ∧
      ∃ fault, m.Offends fault ∧ fault.message =
        "bad topic entry in 'b.txt': invalid type: integer `7`, expected a string" := by
  obtain ⟨m, hm, hpackage⟩ : ∃ m, Manifest.parse? mistypedText = some m ∧
      Text.allBlank m.package.toList = false := by
    have h : (Manifest.parse? mistypedText).map (fun m => Text.allBlank m.package.toList) =
        some false := by decide +kernel
    exact Option.map_eq_some_iff.mp h
  obtain ⟨fault, hload, hmessage⟩ : ∃ fault,
      (load mistypedText "Docs/hyperhelp.json").value =
        .error (.invalid (Resource.normalize "Docs/hyperhelp.json") fault) ∧ fault.message =
          "bad topic entry in 'b.txt': invalid type: integer `7`, expected a string" := by
    have h : (match (load mistypedText "Docs/hyperhelp.json").value with
        | .error (.invalid place fault) => decide (place = "Docs/hyperhelp.json" ∧ fault.message =
            "bad topic entry in 'b.txt': invalid type: integer `7`, expected a string")
        | _ => false) = true := by decide +kernel
    split at h
    · next place fault hload =>
      obtain ⟨rfl, hmessage⟩ := of_decide_eq_true h
      have hplace : Resource.normalize "Docs/hyperhelp.json" = "Docs/hyperhelp.json" := by
        decide +kernel
      exact ⟨fault, hplace.symm ▸ hload, hmessage⟩
    · cases h
  obtain ⟨hinvalid, herror, -⟩ := @load_names_offender _ "Docs/hyperhelp.json" m hm
  obtain ⟨fault', heq, hoffends⟩ := (herror _).mp hload
  cases heq
  refine ⟨m, hm, (hinvalid.mp ⟨fault, hload⟩).resolve_left ?_, fault, hoffends, hmessage⟩
  rw [hpackage]
  exact Bool.false_ne_true

end HelpAudit.Index
