import HelpAudit.Proofs.Lint.Place
import HelpAudit.Proofs.Markup.Body
import HelpAudit.Proofs.Rule.Orphan
import HelpAudit.Proofs.Sequence
import HelpAudit.Proofs.Source.Memory

/-!
The verdict on each link. A link is wrong when it names no topic, a topic that is badly written, or
a package that there is not; it leads astray when its topic is not where the link says, or the file
of the topic is not there. Nothing is said of other links. So a source that holds more gives no more
findings, and no file that such a link leads to from another file is an orphan.
-/
namespace HelpAudit.Link

open Markup (LinkBody nonEmpty?)
open Orphan (StaysHome)

/-- What a link refers to: a topic, and the package or file that is to have it. -/
structure Reference where
  qualifier : Option String
  topic : String

/-- Of one segment or two between colons the first is the topic, of more it is the qualifier and
the second the topic. A qualifier that is empty is none. -/
def Reference.ofBody (body : String) : Reference :=
  match body.toList.splitOnP (· == ':') with
  | [] => ⟨none, ""⟩
  | qualifier :: topic :: _ :: _ => ⟨nonEmpty? qualifier, .ofList topic⟩
  | topic :: _ => ⟨none, .ofList topic⟩

/-- The qualifier is neither the package's own name nor a loaded package. -/
def IsStrange (cx : Context) (name : String) : Prop :=
  name ≠ cx.index.package ∧ cx.catalog.find? name = none

/-- The loaded package of the qualifier's name, or else the present one. -/
def packageOf (cx : Context) : Option String → Index
  | none => cx.index
  | some name =>
    if name = cx.index.package then cx.index else (cx.catalog.find? name).getD cx.index

/-- The link has no topic, one with a no-break space or a tab, or a qualifier that is neither a
package nor a declared file. -/
def IsWrong (cx : Context) (r : Reference) : Prop :=
  r.topic = "" ∨ '\u00a0' ∈ r.topic.toList ∨ '\t' ∈ r.topic.toList ∨
    ∃ name ∈ r.qualifier, IsStrange cx name ∧ cx.index.hasFile name = false

/-- The package has not got the topic, or the source has not got the topic's file, or the qualifier
is a declared file but not the topic's. -/
def LeadsAstray (cx : Context) (r : Reference) : Prop :=
  (packageOf cx r.qualifier).lookup r.topic = none ∨
    ∃ t ∈ (packageOf cx r.qualifier).lookup r.topic,
      cx.source.holds ((packageOf cx r.qualifier).resource t.file) = false ∨
        ∃ name ∈ r.qualifier, IsStrange cx name ∧ cx.index.hasFile name = true ∧ t.file ≠ name

instance (cx : Context) (name : String) : Decidable (IsStrange cx name) :=
  inferInstanceAs (Decidable (_ ∧ _))

instance (cx : Context) (r : Reference) : Decidable (IsWrong cx r) :=
  inferInstanceAs (Decidable (_ ∨ _ ∨ _ ∨ ∃ name ∈ r.qualifier, _))

instance (cx : Context) (r : Reference) : Decidable (LeadsAstray cx r) :=
  inferInstanceAs (Decidable (_ ∨ ∃ t ∈ (packageOf cx r.qualifier).lookup r.topic,
    _ ∨ ∃ name ∈ r.qualifier, _))

def verdict? (cx : Context) (r : Reference) : Option Severity :=
  if IsWrong cx r then some .error else if LeadsAstray cx r then some .warning else none

/-- A finding without its words. -/
def unworded (x : Diagnostic) : Diagnostic := { x with message := "" }

variable {cx : Context} {body : String} {qualifier : Option String} {r : Reference}

theorem splitOnP_colon {first : List Char} (h : ':' ∉ first) (rest : List Char) :
    (first ++ ':' :: rest).splitOnP (· == ':') = first :: rest.splitOnP (· == ':') := by
  rw [List.splitOnP_append_cons _ _ rfl, Text.splitOnP_of_not_mem h, List.singleton_append]

theorem nonEmpty?_eq (cs : List Char) :
    nonEmpty? cs = if String.ofList cs = "" then none else some (.ofList cs) := by
  cases cs with
  | nil => rfl
  | cons c cs => simp [nonEmpty?]

/-- The first two colons of a body are all that counts. -/
theorem parse_eq (body : String) :
    (LinkBody.parse body).package = (Reference.ofBody body).qualifier ∧
      (LinkBody.parse body).topic =
        if (Reference.ofBody body).topic = "" then none
        else some (Reference.ofBody body).topic := by
  unfold LinkBody.parse Reference.ofBody
  by_cases hfirst : ':' ∈ body.toList
  · obtain ⟨first, rest, hbody, hnot⟩ := List.eq_append_cons_of_mem hfirst
    rw [hbody, Markup.splitColon_append hnot, splitOnP_colon hnot]
    by_cases hsecond : ':' ∈ rest
    · obtain ⟨topic, text, hrest, hnot'⟩ := List.eq_append_cons_of_mem hsecond
      obtain ⟨piece, pieces, hpieces⟩ :=
        List.exists_cons_of_ne_nil (List.splitOnP_ne_nil (· == ':') text)
      rw [hrest, splitOnP_colon hnot', hpieces]
      dsimp only
      rw [Markup.splitColon_append hnot']
      exact ⟨rfl, nonEmpty?_eq topic⟩
    · rw [Text.splitOnP_of_not_mem hsecond]
      dsimp only
      rw [Markup.splitColon_of_not_mem hsecond]
      exact ⟨rfl, nonEmpty?_eq first⟩
  · rw [Markup.splitColon_of_not_mem hfirst, Text.splitOnP_of_not_mem hfirst]
    exact ⟨rfl, nonEmpty?_eq _⟩

/-- A qualifier that is no package and no declared file resolves to no index, any other to its
package. -/
theorem indexOf?_resolve (cx : Context) (qualifier : Option String) :
    cx.indexOf? (cx.resolve qualifier) =
      if ∃ name ∈ qualifier, IsStrange cx name ∧ cx.index.hasFile name = false then none
      else some (packageOf cx qualifier) := by
  cases qualifier with
  | none => simp [Context.resolve, Context.indexOf?, packageOf]
  | some name =>
    by_cases hown : name = cx.index.package
    · simp [Context.resolve, Context.indexOf?, packageOf, IsStrange, hown]
    · cases hfind : cx.catalog.find? name with
      | some ix => simp [Context.resolve, Context.indexOf?, packageOf, IsStrange, hown, hfind]
      | none =>
        cases hfile : cx.index.hasFile name <;>
          simp [Context.resolve, Context.indexOf?, packageOf, IsStrange, hown, hfind, hfile]

theorem resolve_eq_file_iff {file : String} : cx.resolve qualifier = .file file ↔
    file ∈ qualifier ∧ IsStrange cx file ∧ cx.index.hasFile file = true := by
  constructor
  · intro h
    unfold Context.resolve at h
    split at h
    · cases h
    · next name =>
      split at h
      · cases h
      · next hown =>
        split at h
        · cases h
        · next hfind =>
          split at h
          · next hfile =>
            obtain rfl := PackageRef.file.inj h
            exact ⟨rfl, ⟨hown, hfind⟩, hfile⟩
          · cases h
  · rintro ⟨rfl, ⟨hown, hfind⟩, hfile⟩
    simp [Context.resolve, hown, hfind, hfile]

theorem hasHardSpace_iff {topic : String} :
    hasHardSpace topic = true ↔ '\u00a0' ∈ topic.toList ∨ '\t' ∈ topic.toList := by
  simp [hasHardSpace, List.any_eq_true, and_or_left, exists_or]

theorem fileFault?_eq_none_iff {topic file : String} {ref : PackageRef} :
    fileFault? topic file ref = none ↔ ∀ named, ref = .file named → file = named := by
  cases ref <;> simp [fileFault?]

theorem severity_of_fileFault? {topic file : String} {ref : PackageRef} {f : Fault}
    (h : fileFault? topic file ref = some f) : f.severity = .warning := by
  unfold fileFault? at h
  split at h
  · split at h
    · cases h
    · cases h
      rfl
  · cases h

theorem severity_of_topicFault? {ref : PackageRef} {ix : Index} {topic : String} {f : Fault}
    (h : topicFault? cx ref ix topic = some f) : f.severity = .warning := by
  unfold topicFault? at h
  split at h
  · cases h
    rfl
  · split at h
    · exact severity_of_fileFault? h
    · cases h
      rfl

theorem topicFault?_eq_none_iff : topicFault? cx (cx.resolve r.qualifier)
    (packageOf cx r.qualifier) r.topic = none ↔ ¬LeadsAstray cx r := by
  unfold topicFault? LeadsAstray
  split
  · next hlookup => simp [hlookup]
  · next t hlookup =>
    rw [hlookup]
    cases hholds : cx.source.holds ((packageOf cx r.qualifier).resource t.file) with
    | false => simp [hholds]
    | true => simp [hholds, fileFault?_eq_none_iff, resolve_eq_file_iff]

/-- What is found in a link to a package that there is says that it leads astray. -/
theorem map_severity_topicFault? (cx : Context) (r : Reference) :
    (topicFault? cx (cx.resolve r.qualifier) (packageOf cx r.qualifier) r.topic).map
      Fault.severity = if LeadsAstray cx r then some .warning else none := by
  cases hfault : topicFault? cx (cx.resolve r.qualifier) (packageOf cx r.qualifier) r.topic with
  | none => rw [if_neg (topicFault?_eq_none_iff.mp hfault), Option.map_none]
  | some f =>
    have hastray : LeadsAstray cx r := by
      by_contra hnot
      rw [topicFault?_eq_none_iff.mpr hnot] at hfault
      cases hfault
    rw [if_pos hastray, Option.map_some, severity_of_topicFault? hfault]

/-- The severity of what is found in a link is the verdict on what the link refers to. -/
theorem map_severity_fault? (cx : Context) (body : String) :
    (fault? cx body).map Fault.severity = verdict? cx (.ofBody body) := by
  obtain ⟨hqualifier, htopic⟩ := parse_eq body
  unfold fault?
  dsimp only
  rw [hqualifier, htopic]
  generalize Reference.ofBody body = r
  by_cases hempty : r.topic = ""
  · have hwrong : IsWrong cx r := .inl hempty
    rw [if_pos hempty, verdict?, if_pos hwrong]
    rfl
  rw [if_neg hempty]
  dsimp only
  by_cases hhard : hasHardSpace r.topic = true
  · have hwrong : IsWrong cx r := by
      rcases hasHardSpace_iff.mp hhard with h | h
      · exact .inr (.inl h)
      · exact .inr (.inr (.inl h))
    rw [if_pos hhard, verdict?, if_pos hwrong]
    rfl
  rw [if_neg hhard, indexOf?_resolve]
  by_cases hunknown : ∃ name ∈ r.qualifier, IsStrange cx name ∧ cx.index.hasFile name = false
  · have hwrong : IsWrong cx r := .inr (.inr (.inr hunknown))
    rw [if_pos hunknown, verdict?, if_pos hwrong]
    rfl
  · have hright : ¬IsWrong cx r := by
      rintro (h | h | h | h)
      · exact hempty h
      · exact hhard (hasHardSpace_iff.mpr (.inl h))
      · exact hhard (hasHardSpace_iff.mpr (.inr h))
      · exact hunknown h
    rw [if_neg hunknown, verdict?, if_neg hright]
    exact map_severity_topicFault? cx r

/-- A document gives a finding for each of its links on which there is a verdict, in their order. -/
theorem exists_check_eq (cx : Context) : ∃ message : String → String, ∀ d : Document,
    check cx d = d.links.filterMap fun s => (verdict? cx (.ofBody s.body)).map
      fun severity => ⟨severity, ruleName, d.file, d.position s, message s.body⟩ := by
  refine ⟨fun body => ((fault? cx body).map Fault.message).getD "", fun d => ?_⟩
  refine List.filterMap_congr fun s _ => ?_
  rw [← map_severity_fault?]
  cases hfault : fault? cx s.body with
  | none => rfl
  | some f => simp [hfault]

section Growth

variable {source : Source} (hmore : ∀ r, cx.source.holds r = true → source.holds r = true)
include hmore

theorem leadsAstray_of_more (h : LeadsAstray { cx with source } r) : LeadsAstray cx r := by
  rcases h with h | ⟨t, ht, h | h⟩
  · exact .inl h
  · refine .inr ⟨t, ht, .inl (Bool.eq_false_iff.mpr fun hholds => ?_)⟩
    have hholds := hmore _ hholds
    exact absurd (hholds.symm.trans h) (by decide)
  · exact .inr ⟨t, ht, .inr h⟩

/-- A source that holds more leaves a verdict as it is or takes it back. -/
theorem verdict?_of_more (r : Reference) : verdict? { cx with source } r = verdict? cx r ∨
    verdict? { cx with source } r = none := by
  have hwrong : IsWrong { cx with source } r ↔ IsWrong cx r := Iff.rfl
  unfold verdict?
  simp only [hwrong]
  split
  · exact .inl rfl
  · by_cases h : LeadsAstray { cx with source } r
    · exact .inl (by rw [if_pos h, if_pos (leadsAstray_of_more hmore h)])
    · exact .inr (if_neg h)

theorem unworded_check_of_more (d : Document) :
    ((check { cx with source } d).map unworded).Sublist ((check cx d).map unworded) := by
  obtain ⟨message, hcheck⟩ := exists_check_eq cx
  obtain ⟨message', hcheck'⟩ := exists_check_eq { cx with source }
  rw [hcheck, hcheck', List.map_filterMap, List.map_filterMap]
  refine filterMap_sublist_filterMap fun s _ => ?_
  rcases verdict?_of_more hmore (.ofBody s.body) with heq | hnone
  · left
    rw [heq, Option.map_map, Option.map_map]
    rfl
  · right
    rw [hnone]
    rfl

end Growth

/-- A link into the package of which nothing is said leads to a file. -/
theorem leadsHome_of_silent (hsilent : verdict? cx (.ofBody body) = none)
    (hhome : StaysHome cx (Reference.ofBody body).qualifier) :
    ∃ t, cx.index.lookup (Reference.ofBody body).topic = some t ∧
      Orphan.LeadsHome cx body t.file := by
  obtain ⟨hqualifier, htopic⟩ := parse_eq body
  have hfault : fault? cx body = none := by
    rw [← map_severity_fault?] at hsilent
    exact Option.map_eq_none_iff.mp hsilent
  obtain ⟨topic, ix, t, hparse, hix, hlookup, -⟩ := leads_of_fault?_eq_none hfault
  have hown : ix = cx.index := by
    rw [hqualifier] at hix
    rcases Orphan.staysHome_iff.mp hhome with h | ⟨name, h⟩
    · rw [h] at hix
      exact (Option.some.inj hix).symm
    · rw [h] at hix
      exact (Option.some.inj hix).symm
  have hsame : (Reference.ofBody body).topic = topic := by
    rw [htopic] at hparse
    split at hparse
    · cases hparse
    · exact Option.some.inj hparse
  rw [hown] at hlookup
  refine ⟨t, hsame ▸ hlookup, hqualifier ▸ hhome, ?_⟩
  rw [hparse, Option.bind_some, hlookup]
  rfl

theorem message_ne_of_leadsHome {docs : List Document} {d : Document} {s : Markup.Span}
    {file : String} (hd : d ∈ docs) (hs : s ∈ d.links) (hlead : Orphan.LeadsHome cx s.body file)
    (hne : file ≠ d.file) : ∀ x ∈ (Checker.orphan [Orphan.rootFile]).report cx docs,
      x.message ≠ Orphan.message file := by
  intro x hx hmessage
  rw [Orphan.report_eq] at hx
  obtain ⟨f, hf, rfl⟩ := List.mem_map.mp hx
  obtain ⟨-, horphan⟩ := List.mem_filter.mp hf
  have hpath : f.path = file := Orphan.message_injective hmessage
  rw [hpath] at horphan
  exact (of_decide_eq_true horphan).2 d hd hne.symm s hs hlead

/-- The rule has a verdict on each link and reports it in the order of the links, which is that of
their places in a scanned text. A source that holds more gives no finding where there was none; what
is left may say something else of its link. A link into the package of which nothing is said has a
topic, and if the topic lives in another file, that file is not reported as an orphan. -/
theorem reports_by_verdict (cx : Context) :
    (∃ message : String → String, ∀ d : Document, check cx d = d.links.filterMap fun s =>
      (verdict? cx (.ofBody s.body)).map
        fun severity => ⟨severity, ruleName, d.file, d.position s, message s.body⟩) ∧
    (∀ file text, (check cx (.scan .help file text)).Pairwise
      fun x y => x.position.Precedes y.position) ∧
    (∀ source : Source, (∀ r, cx.source.holds r = true → source.holds r = true) →
      ∀ d, ((check { cx with source } d).map unworded).Sublist ((check cx d).map unworded)) ∧
    ∀ docs : List Document, ∀ d ∈ docs, ∀ s ∈ d.links, verdict? cx (.ofBody s.body) = none →
      StaysHome cx (Reference.ofBody s.body).qualifier →
        ∃ t, cx.index.lookup (Reference.ofBody s.body).topic = some t ∧
          (t.file ≠ d.file → ∀ x ∈ (Checker.orphan [Orphan.rootFile]).report cx docs,
            x.message ≠ Orphan.message t.file) := by
  refine ⟨exists_check_eq cx, fun file text => (reports_check cx file text).ordered,
    fun source hmore d => unworded_check_of_more hmore d, ?_⟩
  intro docs d hd s hs hsilent hhome
  obtain ⟨t, hlookup, hlead⟩ := leadsHome_of_silent hsilent hhome
  exact ⟨t, hlookup, message_ne_of_leadsHome hd hs hlead⟩

/-- One file of the package is there. -/
def oneHeld : Memory := .ofList [("Docs/help/b.txt", "")]

def besideOneHeld : Context := { Orphan.besideOther with source := oneHeld.source }

/-- A link that names the file of another topic, one by an alias, and one to no package. -/
def threeLinks : Document := .scan .help "c.txt" "|a.txt:in_b:B| |bee| |None:in_c:C|"

theorem threeLinks_verdicts :
    threeLinks.links.map (fun s => verdict? besideOneHeld (.ofBody s.body)) =
      [some .warning, none, some .error] ∧
    ((check { besideOneHeld with source := (oneHeld.put "Docs/help/a.txt" "").source }
      threeLinks).map unworded).Sublist ((check besideOneHeld threeLinks).map unworded) ∧
    StaysHome besideOneHeld (Reference.ofBody "bee").qualifier ∧
    ∀ x ∈ (Checker.orphan [Orphan.rootFile]).report besideOneHeld [threeLinks],
      x.message ≠ Orphan.message "b.txt" := by
  have hverdicts : threeLinks.links.map (fun s => verdict? besideOneHeld (.ofBody s.body)) =
      [some .warning, none, some .error] := by decide +kernel
  have hlink : (⟨15, "bee"⟩ : Markup.Span) ∈ threeLinks.links := by decide +kernel
  have hsilent : verdict? besideOneHeld (.ofBody "bee") = none := by decide +kernel
  have hhome : StaysHome besideOneHeld (Reference.ofBody "bee").qualifier := by decide +kernel
  have hfile : (besideOneHeld.index.lookup (Reference.ofBody "bee").topic).map (·.file) =
      some "b.txt" := by decide +kernel
  obtain ⟨-, -, hmore, hlinked⟩ := reports_by_verdict besideOneHeld
  obtain ⟨t, hlookup, hreport⟩ :=
    hlinked [threeLinks] threeLinks (List.mem_singleton_self _) _ hlink hsilent hhome
  rw [hlookup] at hfile
  obtain hfile : t.file = "b.txt" := Option.some.inj hfile
  rw [hfile] at hreport
  exact ⟨hverdicts, hmore _ (fun r h => Memory.holds_put h _ _) threeLinks, hhome,
    hreport (by decide +kernel)⟩

end HelpAudit.Link
