import HelpAudit.Proofs.Index.Growth
import HelpAudit.Proofs.Index.Identity

/-!
Which of several declarations of a name stands: for a file the last, in the place of the first; for
a topic the first, with a warning for each other one. Declarations of different kinds do not meet,
so they may be mixed in any way.
-/
namespace HelpAudit

namespace Declaration

/-- The declared files, with the titles they are declared with. -/
def helpFiles (ds : List Declaration) : List HelpFile :=
  ds.filterMap fun
    | .file path title => some ⟨path, title⟩
    | _ => none

def topics (ds : List Declaration) : List Topic :=
  ds.filterMap fun
    | .topic t => some t
    | _ => none

/-- The title that a path is declared with last. -/
def title? (ds : List Declaration) (path : String) : Option String :=
  ((helpFiles ds).reverse.find? (·.path == path)).map (·.title)

/-- The topic that an id is declared with first. -/
def topic? (ds : List Declaration) (id : String) : Option Topic := (topics ds).find? (·.id == id)

/-- A warning for each topic with the id of one declared before it. -/
def warnings (package : String) (ds : List Declaration) : List Event :=
  filterMapAfter (fun before t => (before.find? (·.id == t.id)).map fun kept =>
    .topicRedeclared package t.id kept.file t.file) (topics ds)

variable {ds : List Declaration} {decl : Declaration}

theorem title?_concat_file (path title name : String) :
    title? (ds ++ [.file path title]) name =
      if name = path then some title else title? ds name := by
  by_cases h : name = path
  · simp [title?, helpFiles, h]
  · have hne : (path == name) = false := beq_false_of_ne (Ne.symm h)
    simp [title?, helpFiles, h, hne]

theorem title?_concat_of_ne (h : ∀ path title, decl ≠ .file path title) (name : String) :
    title? (ds ++ [decl]) name = title? ds name := by
  cases decl with
  | file path title => exact absurd rfl (h path title)
  | _ => simp [title?, helpFiles]

theorem topics_concat_of_ne (h : ∀ t, decl ≠ .topic t) : topics (ds ++ [decl]) = topics ds := by
  cases decl with
  | topic t => exact absurd rfl (h t)
  | _ => simp [topics]

theorem topic?_concat_of_ne (h : ∀ t, decl ≠ .topic t) (id : String) :
    topic? (ds ++ [decl]) id = topic? ds id := by
  rw [topic?, topics_concat_of_ne h, topic?]

theorem topic?_concat_topic (t : Topic) (id : String) : topic? (ds ++ [.topic t]) id =
    (topic? ds id).or (if id = t.id then some t else none) := by
  by_cases h : id = t.id
  · simp [topic?, topics, h]
  · have hne : (t.id == id) = false := beq_false_of_ne (Ne.symm h)
    simp [topic?, topics, h, hne]

theorem warnings_concat_of_ne (package : String) (h : ∀ t, decl ≠ .topic t) :
    warnings package (ds ++ [decl]) = warnings package ds := by
  rw [warnings, topics_concat_of_ne h, warnings]

theorem warnings_concat_topic (package : String) (t : Topic) :
    warnings package (ds ++ [.topic t]) = warnings package ds ++
      ((topic? ds t.id).map fun kept => .topicRedeclared package t.id kept.file t.file).toList := by
  have htopics : topics (ds ++ [.topic t]) = topics ds ++ [t] := by simp [topics]
  rw [warnings, htopics, filterMapAfter_concat]
  rfl

end Declaration

namespace Draft

open Declaration

theorem find?_setTitle (path title name : String) (fs : List HelpFile) :
    (setTitle path title fs).find? (·.path == name) =
      if name = path then some ⟨path, title⟩ else fs.find? (·.path == name) := by
  induction fs with
  | nil =>
    by_cases h : name = path
    · simp [setTitle, h]
    · have hne : (path == name) = false := beq_false_of_ne (Ne.symm h)
      simp [setTitle, h, hne]
  | cons f fs ih =>
    unfold setTitle
    by_cases hf : f.path = path
    · by_cases h : name = path
      · simp [hf, h]
      · have hne : (path == name) = false := beq_false_of_ne (Ne.symm h)
        simp [hf, h, hne]
    · rw [if_neg hf, List.find?_cons, List.find?_cons, ih]
      by_cases h : name = path
      · have hne : (f.path == name) = false := beq_false_of_ne (h ▸ hf)
        simp [h ▸ hne, h]
      · simp [h]

/-- A draft has what the declarations say: the last titles, the first topics and a warning for each
other topic. -/
structure Reflects (ds : List Declaration) (d : Draft) : Prop where
  paths : d.files.map (·.path) = Declaration.paths ds
  files : ∀ path, d.files.find? (·.path == path) = (title? ds path).map (HelpFile.mk path)
  topics : ∀ id, d.topics.find? id = topic? ds id
  events : d.events = warnings d.package ds

variable {ds : List Declaration} {d : Draft}

theorem reflects_start (package docRoot : String) : Reflects [] (start package docRoot) where
  paths := rfl
  files _ := rfl
  topics _ := rfl
  events := rfl

theorem reflects_file (h : Reflects ds d) (path title : String) :
    Reflects (ds ++ [.file path title]) (d.declare (.file path title)) where
  paths := by
    rw [paths_concat_file, ← h.paths]
    exact paths_setTitle path title d.files
  files name := by
    rw [title?_concat_file]
    show (setTitle path title d.files).find? (·.path == name) = _
    rw [find?_setTitle, h.files]
    split
    · next heq => rw [heq, Option.map_some]
    · rfl
  topics id := by
    rw [topic?_concat_of_ne (by simp)]
    exact h.topics id
  events := by
    rw [warnings_concat_of_ne _ (by simp)]
    exact h.events

theorem reflects_topic (h : Reflects ds d) (t : Topic) :
    Reflects (ds ++ [.topic t]) (d.declare (.topic t)) := by
  have hpaths : d.files.map (·.path) = Declaration.paths (ds ++ [.topic t]) := by
    rw [paths_concat_of_ne (by simp), h.paths]
  have hfiles : ∀ path, d.files.find? (·.path == path) =
      (title? (ds ++ [.topic t]) path).map (HelpFile.mk path) := by
    intro path
    rw [title?_concat_of_ne (by simp), h.files]
  rw [declare, addTopic]
  -- Whether the id is new decides between a new entry and a warning.
  cases hkept : d.topics.find? t.id with
  | some kept =>
    refine ⟨hpaths, hfiles, fun id => ?_, ?_⟩
    · rw [topic?_concat_topic]
      show d.topics.find? id = _
      by_cases hid : id = t.id
      · rw [hid, if_pos rfl, ← h.topics, hkept, Option.some_or]
      · rw [if_neg hid, Option.or_none, h.topics]
    · rw [warnings_concat_topic, ← h.topics, hkept]
      show d.events ++ _ = _
      rw [h.events]
      rfl
  | none =>
    refine ⟨hpaths, hfiles, fun id => ?_, ?_⟩
    · rw [topic?_concat_topic, ← h.topics]
      show (d.topics.insert t.id t).find? id = _
      rw [NameMap.find?_insert]
      split
      · next hid => rw [hid, hkept, Option.none_or]
      · rw [Option.or_none]
    · rw [warnings_concat_topic, ← h.topics, hkept]
      show d.events = _
      rw [h.events, Option.map_none, Option.toList_none, List.append_nil]

theorem reflects_declare (h : Reflects ds d) (decl : Declaration) :
    Reflects (ds ++ [decl]) (d.declare decl) := by
  cases decl with
  | file path title => exact reflects_file h path title
  | topic t => exact reflects_topic h t
  | _ =>
    refine ⟨?_, fun path => ?_, fun id => ?_, ?_⟩
    · rw [paths_concat_of_ne (by simp)]
      exact h.paths
    · rw [title?_concat_of_ne (by simp)]
      exact h.files path
    · rw [topic?_concat_of_ne (by simp)]
      exact h.topics id
    · rw [warnings_concat_of_ne _ (by simp)]
      exact h.events

theorem reflects_declareAll (package docRoot : String) (ds : List Declaration) :
    Reflects ds ((start package docRoot).declareAll ds) := by
  induction ds using List.reverseRecOn with
  | nil => exact reflects_start package docRoot
  | append_singleton ds decl ih =>
    rw [declareAll, List.foldl_append]
    exact reflects_declare ih decl

end Draft

/-- What a declaration is about. -/
inductive Declaration.Kind where
  | description
  | location
  | file
  | topic
  | contents
  deriving DecidableEq

def Declaration.kind : Declaration → Kind
  | .description _ => .description
  | .location _ => .location
  | .file .. => .file
  | .topic _ => .topic
  | .entry .. | .edge .. => .contents

theorem Draft.addTopic_declare (d : Draft) (t : Topic) {decl : Declaration}
    (h : decl.kind ≠ .topic) : (d.addTopic t).declare decl = (d.declare decl).addTopic t := by
  cases decl with
  | topic u => exact absurd rfl h
  | _ =>
    simp only [addTopic, declare]
    split <;> rfl

/-- Declarations of different kinds may change places. -/
theorem Draft.declare_declare_comm (d : Draft) {a b : Declaration} (h : a.kind ≠ b.kind) :
    (d.declare a).declare b = (d.declare b).declare a := by
  cases a with
  | topic t => exact d.addTopic_declare t (Ne.symm h)
  | _ =>
    cases b with
    | topic t => exact (d.addTopic_declare t h).symm
    | _ => first
      | rfl
      | exact absurd rfl h

namespace Index

open Declaration

theorem hasFile_iff {ix : Index} {path : String} :
    ix.hasFile path = true ↔ path ∈ ix.files.map (·.path) := by
  simp [hasFile, file?, List.find?_isSome]

theorem title?_eq_some_iff {ix : Index} (h : (ix.files.map (·.path)).Nodup) {path title : String} :
    ix.title? path = some title ↔ ⟨path, title⟩ ∈ ix.files := by
  constructor
  · intro ht
    obtain ⟨f, hf, rfl⟩ := Option.map_eq_some_iff.mp ht
    obtain rfl : f.path = path := beq_iff_eq.mp (List.find?_some hf :)
    exact List.mem_of_find?_eq_some hf
  · exact title?_of_mem h

/-- Topics that stand under their ids are listed in the order of the ids. -/
theorem pairwise_values {ix : Index} (h : Sound ix.files ix.topics) :
    ix.topics.values.Pairwise (·.id < ·.id) := by
  apply List.pairwise_map.mpr
  refine ix.topics.ascending.imp_of_mem fun {a b} ha hb hlt => ?_
  rwa [h.keyed (NameMap.find?_eq_some_iff.mpr ha), h.keyed (NameMap.find?_eq_some_iff.mpr hb)]

theorem pairwise_topicsOf {ix : Index} (h : Sound ix.files ix.topics) (file : String) :
    (ix.topicsOf file).Pairwise (·.id < ·.id) :=
  (pairwise_values h).filter _

/-- What an index has of its declarations. -/
structure Records (ds : List Declaration) (ix : Index) : Prop where
  /-- Each declared path stands once, where it was declared first. -/
  paths : ix.files.map (·.path) = Declaration.paths ds
  nodup : (ix.files.map (·.path)).Nodup
  /-- A file has the title of its last declaration. -/
  titles : ∀ f ∈ ix.files, Declaration.title? ds f.path = some f.title
  /-- Looking a path up finds what the list of files has. -/
  hasFile : ∀ path, ix.hasFile path = true ↔ path ∈ ix.files.map (·.path)
  title? : ∀ path title, ix.title? path = some title ↔ ⟨path, title⟩ ∈ ix.files
  /-- A declared topic is as it was declared first. -/
  first : ∀ id t, topic? ds id = some t → ix.topics.find? id = some t
  /-- A file that declares no topic of its name has one that shows its title. -/
  own : ∀ f ∈ ix.files, topic? ds f.path = none →
    ix.topics.find? f.path = some ⟨f.path, f.path, f.title, []⟩
  /-- There are no other topics. -/
  only : ∀ id t, ix.topics.find? id = some t →
    topic? ds id = some t ∨ id ∈ ix.files.map (·.path)
  /-- The topics of a file are all that live in it, in the order of their ids. -/
  topicsOf : ∀ file t, t ∈ ix.topicsOf file ↔ ix.topics.find? t.id = some t ∧ t.file = file
  ordered : ∀ file, (ix.topicsOf file).Pairwise (·.id < ·.id)

theorem records_build {ds : List Declaration} {d : Draft} (hsound : Sound d.files d.topics)
    (h : d.Reflects ds) : d.build.Records ds := by
  have hbuilt : Sound d.build.files d.build.topics := Draft.sound_build hsound
  have hfind : ∀ f ∈ d.files, d.files.find? (·.path == f.path) = some f :=
    fun f hf => file?_of_mem hbuilt.paths_nodup hf
  constructor
  case paths => exact h.paths
  case nodup => exact hbuilt.paths_nodup
  case titles =>
    intro f hf
    have hfile := hfind f hf
    rw [h.files] at hfile
    obtain ⟨title, ht, heq⟩ := Option.map_eq_some_iff.mp hfile
    rw [ht, ← heq]
  case hasFile => exact fun path => hasFile_iff
  case title? => exact fun path title => title?_eq_some_iff hbuilt.paths_nodup
  case first =>
    intro id t ht
    rw [Draft.find?_build_topics, h.topics, ht, Option.some_or]
  case own =>
    intro f hf hnone
    rw [Draft.find?_build_topics, h.topics, hnone, Option.none_or, hfind f hf, Option.map_some,
      Draft.ownTopic]
  case only =>
    intro id t ht
    rw [Draft.find?_build_topics, h.topics, Option.or_eq_some_iff] at ht
    obtain ht | ⟨-, ht⟩ := ht
    · exact .inl ht
    · obtain ⟨f, hf, -⟩ := Option.map_eq_some_iff.mp ht
      obtain rfl : f.path = id := beq_iff_eq.mp (List.find?_some hf :)
      exact .inr (List.mem_map_of_mem (List.mem_of_find?_eq_some hf))
  case topicsOf => exact fun file t => mem_topicsOf hbuilt
  case ordered => exact pairwise_topicsOf hbuilt

/-- An index has the paths in the order of their first declarations with their last titles, and the
first topic of each id; each other topic is warned of once. It stays the same when declarations are
mixed in another way, as long as those of each kind keep their order. -/
theorem records_ofDeclarations (package docRoot : String) (ds : List Declaration) :
    (ofDeclarations package docRoot ds).Records ds ∧
    ((Draft.start package docRoot).declareAll ds).events = warnings package ds ∧
    ∀ ds', (∀ k, ds'.filter (·.kind = k) = ds.filter (·.kind = k)) →
      ofDeclarations package docRoot ds' = ofDeclarations package docRoot ds := by
  have hsound := Draft.sound_declareAll (Draft.sound_start package docRoot) ds
  have hreflects := Draft.reflects_declareAll package docRoot ds
  refine ⟨records_build hsound hreflects, ?_, fun ds' h => ?_⟩
  · rw [hreflects.events, (Draft.identity_declareAll ds _).1]
    rfl
  · rw [ofDeclarations, ofDeclarations, Draft.declareAll, Draft.declareAll,
      foldl_eq_of_filter_eq (fun d _ _ hne => d.declare_declare_comm hne) h]

/-- Paths and topics that are declared more than once, and a topic named as a file. -/
def clashes : List Declaration :=
  [.file "b.txt" "B", .topic ⟨"t", "b.txt", "First", ["alias"]⟩, .file "a.txt" "A",
    .entry none ⟨"t", "b.txt", none, []⟩, .topic ⟨"t", "a.txt", "Second", []⟩,
    .file "b.txt" "Last", .topic ⟨"a.txt", "b.txt", "Named", []⟩]

/-- The same declarations with the files last. -/
def clashesFilesLast : List Declaration :=
  clashes.filter (·.kind ≠ .file) ++ clashes.filter (·.kind = .file)

theorem clashes_records :
    (∀ k, clashesFilesLast.filter (·.kind = k) = clashes.filter (·.kind = k)) ∧
    (ofDeclarations "Docs" "Docs/help" clashes).files = [⟨"b.txt", "Last"⟩, ⟨"a.txt", "A"⟩] ∧
    (ofDeclarations "Docs" "Docs/help" clashes).topics.find? "t" =
      some ⟨"t", "b.txt", "First", ["alias"]⟩ ∧
    ((Draft.start "Docs" "Docs/help").declareAll clashes).events.length = 1 ∧
    ofDeclarations "Docs" "Docs/help" clashesFilesLast =
      ofDeclarations "Docs" "Docs/help" clashes := by
  have hkinds : ∀ k, clashesFilesLast.filter (·.kind = k) = clashes.filter (·.kind = k) := by
    intro k
    cases k <;> rfl
  obtain ⟨hrecords, hevents, hmixed⟩ := records_ofDeclarations "Docs" "Docs/help" clashes
  refine ⟨hkinds, by decide +kernel, hrecords.first _ _ (by decide), ?_, hmixed _ hkinds⟩
  rw [hevents]
  rfl

end Index

end HelpAudit
