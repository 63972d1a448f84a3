import HelpAudit.Index.Load
import HelpAudit.Proofs.Index.Draft
import HelpAudit.Proofs.Index.Promotion

/-! Loading a manifest: the table of contents of the loaded index is that of the promoted entries,
and each entry that gave way is noted. -/
namespace HelpAudit.Index

open Entry

/-- What loading notes about an entry that gives way. -/
def Entry.Line.note? (file? : String → Option String) (package : String) (l : Line) :
    Option Event :=
  if l.known file? then none else some (.unknownContentsTopic package l.topic)

/-- Entries either stay or are noted. -/
theorem length_kept_add_notes (file? : String → Option String) (package : String)
    (ls : List Line) :
    (ls.filter (Line.known file?)).length + (ls.filterMap (Line.note? file? package)).length =
      ls.length := by
  induction ls with
  | nil => rfl
  | cons l ls ih =>
    rw [List.filter_cons, List.filterMap_cons, Line.note?, List.length_cons]
    cases l.known file? with
    | true =>
      simp only [if_true, List.length_cons]
      omega
    | false =>
      simp only [Bool.false_eq_true, if_false, List.length_cons]
      omega

section
variable {file? : String → Option String}

mutual
/-- Adding an entry pushes the rows of its promotion and notes the lines that give way. -/
theorem addEntry_eq (parent : Option Nat) (above : List Nat) (place : Nat) (d : Draft) :
    ∀ e : Entry, addEntry file? parent d e =
      { d with
        contents := d.contents.pushAll
          (Outline.rowsAll parent d.contents.nodes.size (promote file? e))
        events := d.events ++ (lines above place e).filterMap (Line.note? file? d.package) }
  | .node topic caption children => by
    rw [addEntry, promote, lines, List.filterMap_cons, Line.note?, Line.known]
    cases hf : file? topic with
    | some file =>
      have ih := addEntries_eq (some d.contents.nodes.size) (place :: above) (place + 1)
        (d.declare (.entry parent ⟨topic, file, caption, []⟩)) children
      have hsize : (d.declare (.entry parent ⟨topic, file, caption, []⟩)).contents.nodes.size =
          d.contents.nodes.size + 1 := Contents.size_push _ _ _
      rw [hsize] at ih
      simp only [Option.isSome_some, if_true, Outline.rowsAll, Outline.rows, List.append_nil]
      exact ih
    | none =>
      have ih := addEntries_eq parent (place :: above) (place + 1)
        (d.note (.unknownContentsTopic d.package topic)) children
      simp only [Option.isSome_none, Bool.false_eq_true, if_false, ih]
      simp only [Draft.note, List.append_assoc, List.singleton_append]

theorem addEntries_eq (parent : Option Nat) (above : List Nat) (place : Nat) (d : Draft) :
    ∀ es : List Entry, addEntries file? parent d es =
      { d with
        contents := d.contents.pushAll
          (Outline.rowsAll parent d.contents.nodes.size (promoteAll file? es))
        events := d.events ++ (linesAll above place es).filterMap (Line.note? file? d.package) }
  | [] => by
    simp [addEntries, promoteAll, Outline.rowsAll, linesAll, Contents.pushAll]
  | e :: es => by
    rw [addEntries, addEntry_eq parent above place d e,
      addEntries_eq parent above (place + (lines above place e).length) _ es]
    simp only [promoteAll, linesAll, Outline.rowsAll_append, Contents.pushAll_append,
      Contents.size_pushAll, List.filterMap_append, List.append_assoc]
end

end

/-- Declarations of files and of the topics that live in them. -/
def isOfFile : Declaration → Bool
  | .file _ _ | .topic _ => true
  | _ => false

theorem isOfFile_topicDeclarations (file : String) (items : List Json) :
    ∀ decl ∈ (topicDeclarations file items).1, isOfFile decl = true := by
  induction items with
  | nil => simp [topicDeclarations]
  | cons v items ih =>
    intro decl hd
    rw [topicDeclarations] at hd
    cases hv : TopicEntry.read file v with
    | error e => simp [hv] at hd
    | ok t =>
      simp only [hv, List.mem_cons] at hd
      rcases hd with rfl | hd
      · rfl
      · exact ih decl hd

theorem isOfFile_fileDeclarations (file : String) (v : Json) :
    ∀ decl ∈ (fileDeclarations file v).1, isOfFile decl = true := by
  intro decl hd
  unfold fileDeclarations at hd
  split at hd
  · rcases List.mem_cons.mp hd with rfl | hd
    · rfl
    · exact isOfFile_topicDeclarations file _ decl hd
  · simp at hd
  · simp at hd

theorem isOfFile_declarations (files : List (String × Json)) :
    ∀ decl ∈ (declarations files).1, isOfFile decl = true := by
  induction files with
  | nil => simp [declarations]
  | cons f files ih =>
    obtain ⟨file, v⟩ := f
    intro decl hd
    rw [declarations] at hd
    have hfile := isOfFile_fileDeclarations file v decl
    cases hv : fileDeclarations file v with
    | mk ds fault =>
      rw [hv] at hd hfile
      cases fault with
      | some fault => exact hfile hd
      | none =>
        rcases List.mem_append.mp hd with hd | hd
        · exact hfile hd
        · exact ih decl hd

/-- Files and topics leave the table of contents and the location alone. -/
theorem declareAll_of_isOfFile {ds : List Declaration} (h : ∀ decl ∈ ds, isOfFile decl = true)
    (d : Draft) : (d.declareAll ds).contents = d.contents ∧
      (d.declareAll ds).location = d.location := by
  induction ds generalizing d with
  | nil => exact ⟨rfl, rfl⟩
  | cons decl ds ih =>
    have hdecl := h decl List.mem_cons_self
    have hrest := ih (fun decl hd => h decl (List.mem_cons_of_mem _ hd)) (d.declare decl)
    have hstep : (d.declare decl).contents = d.contents ∧
        (d.declare decl).location = d.location := by
      cases decl with
      | file path title => exact ⟨rfl, rfl⟩
      | topic t =>
        obtain ⟨topics, events, h⟩ := d.exists_addTopic_eq t
        rw [Draft.declare, h]
        exact ⟨rfl, rfl⟩
      | description text => cases hdecl
      | location path => cases hdecl
      | entry parent node => cases hdecl
      | edge parent child => cases hdecl
    exact ⟨hrest.1.trans hstep.1, hrest.2.trans hstep.2⟩

def isUnknownTopic : Event → Bool
  | .unknownContentsTopic _ _ => true
  | _ => false

/-- Declarations never note an unknown topic. -/
theorem unknown_declareAll (ds : List Declaration) (d : Draft) :
    (d.declareAll ds).events.filter isUnknownTopic = d.events.filter isUnknownTopic := by
  induction ds generalizing d with
  | nil => rfl
  | cons decl ds ih =>
    refine (ih (d.declare decl)).trans ?_
    cases decl with
    | topic t =>
      rw [Draft.declare, Draft.addTopic]
      split
      · simp [Draft.note, List.filter_append, isUnknownTopic]
      · rfl
    | _ => rfl

/-- The draft of a manifest before its table of contents is read. -/
def Manifest.draft (m : Manifest) (location : String) : Draft :=
  (Draft.start m.package (documentRoot location m.docRoot)).declareAll
    (.description m.description :: .location location :: (declarations m.files).1)

theorem Manifest.contents_draft (m : Manifest) (location : String) :
    (m.draft location).contents = .empty :=
  (declareAll_of_isOfFile (isOfFile_declarations m.files) _).1

theorem Manifest.location_draft (m : Manifest) (location : String) :
    (m.draft location).location = some (Resource.normalize location) :=
  (declareAll_of_isOfFile (isOfFile_declarations m.files) _).2

/-- A load that succeeds builds the draft of the manifest with its entries. -/
theorem load_cases {text location : String} {ix : Index}
    (h : (load text location).value = .ok ix) :
    ∃ m d, Manifest.parse? text = some m ∧ d = m.draft (Resource.normalize location) ∧
      ix = (addEntries d.fileFor? none d m.contents).build ∧
      (load text location).events = (addEntries d.fileFor? none d m.contents).events := by
  unfold load at h ⊢
  cases hm : Manifest.parse? text with
  | none =>
    rw [hm] at h
    cases h
  | some m =>
    rw [hm] at h
    dsimp only at h ⊢
    split at h
    · cases h
    · next hblank =>
      refine ⟨m, m.draft (Resource.normalize location), rfl, rfl, ?_⟩
      rw [if_neg hblank]
      dsimp only [Manifest.draft]
      cases hf : (declarations m.files).2 with
      | some fault =>
        rw [hf] at h
        cases h
      | none =>
        rw [hf] at h
        cases h
        exact ⟨rfl, rfl⟩

/-- The file of the topic that a name leads to. -/
def fileOf? (ix : Index) (name : String) : Option String := (ix.lookup name).map (·.file)

/-- The log is about a topic. -/
def isOfTopic : Event → Bool
  | .topicRedeclared .. | .unknownContentsTopic .. => true
  | _ => false

theorem isOfTopic_declareAll {d : Draft} (h : ∀ e ∈ d.events, isOfTopic e = true)
    (ds : List Declaration) : ∀ e ∈ (d.declareAll ds).events, isOfTopic e = true := by
  induction ds generalizing d with
  | nil => exact h
  | cons decl ds ih =>
    refine ih (d := d.declare decl) ?_
    cases decl with
    | topic t =>
      rw [Draft.declare, Draft.addTopic]
      split
      · intro e he
        rcases List.mem_append.mp he with he | he
        · exact h e he
        · rw [List.mem_singleton.mp he]
          rfl
      · exact h
    | _ => exact h

/-- How a loaded index and the log of its load come from the table of contents of the manifest. -/
structure ContentsLoaded (m : Manifest) (location : String) (ix : Index) (events : List Event) :
    Prop where
  promoted : Promoted ix.fileOf? m.contents ix.contents
  resolved : ∀ name, (m.draft location).fileFor? name = ix.fileOf? name
  noted : events.filter isUnknownTopic =
    (listing m.contents).filterMap (Line.note? ix.fileOf? ix.package)
  counted : ix.contents.nodes.size + (events.filter isUnknownTopic).length =
    (listing m.contents).length

theorem isUnknownTopic_of_mem_notes {file? : String → Option String} {package : String}
    {ls : List Line} {e : Event} (h : e ∈ ls.filterMap (Line.note? file? package)) :
    isUnknownTopic e = true := by
  obtain ⟨l, -, hl⟩ := List.mem_filterMap.mp h
  rw [Line.note?] at hl
  split at hl
  · cases hl
  · rw [← Option.some.inj hl]
    rfl

theorem isOfTopic_of_isUnknownTopic {e : Event} (h : isUnknownTopic e = true) :
    isOfTopic e = true := by
  cases e with
  | unknownContentsTopic package topic => rfl
  | _ => cases h

/-- A load notes topics only, whether it succeeds or not. -/
theorem isOfTopic_of_mem_events_load {text location : String} :
    ∀ e ∈ (load text location).events, isOfTopic e = true := by
  have hdraft (m : Manifest) :
      ∀ e ∈ (m.draft (Resource.normalize location)).events, isOfTopic e = true :=
    isOfTopic_declareAll (by simp [Draft.start]) _
  unfold load
  cases Manifest.parse? text with
  | none => simp
  | some m =>
    dsimp only
    split
    · simp
    · cases (declarations m.files).2 with
      | some fault => exact hdraft m
      | none =>
        dsimp only
        rw [addEntries_eq none [] 0]
        intro e he
        rcases List.mem_append.mp he with he | he
        · exact hdraft m e he
        · exact isOfTopic_of_isUnknownTopic (isUnknownTopic_of_mem_notes he)

/-- The table of contents of a loaded index is that of the promoted entries, where the loader and
the finished index know the same topics, and every entry either is a node or was noted. -/
theorem contentsLoaded_of_load {text location : String} {ix : Index}
    (h : (load text location).value = .ok ix) :
    ∃ m, Manifest.parse? text = some m ∧
      ContentsLoaded m (Resource.normalize location) ix (load text location).events := by
  obtain ⟨m, d, hm, hd, hix, hevents⟩ := load_cases h
  refine ⟨m, hm, ?_⟩
  rw [addEntries_eq none [] 0] at hix hevents
  have hresolved : ∀ name, d.fileFor? name = ix.fileOf? name := by
    intro name
    rw [Draft.fileFor?_eq_lookup_build, hix]
    rfl
  have hcontents : d.contents = .empty := by
    rw [hd]
    exact m.contents_draft _
  have hflat : ix.contents = Outline.flatten (promoteAll ix.fileOf? m.contents) := by
    rw [← funext hresolved, hix, ← Outline.pushAll_rowsAll]
    simp only [Draft.build, hcontents]
    rfl
  have hpromoted : Promoted ix.fileOf? m.contents ix.contents := by
    rw [hflat]
    exact promoted_flatten _ _
  have hpackage : ix.package = d.package := by
    rw [hix]
    rfl
  have hnoted : (load text location).events.filter isUnknownTopic =
      (listing m.contents).filterMap (Line.note? ix.fileOf? ix.package) := by
    have hdraft : d.events.filter isUnknownTopic = [] := by
      rw [hd]
      exact unknown_declareAll _ _
    rw [hevents, List.filter_append, hdraft, List.nil_append, funext hresolved, hpackage]
    exact List.filter_eq_self.mpr fun e he => isUnknownTopic_of_mem_notes he
  refine ⟨hpromoted, ?_, hnoted, ?_⟩
  · rw [← hd]
    exact hresolved
  · have hsize : ix.contents.nodes.size =
        ((listing m.contents).filter (Line.known ix.fileOf?)).length := by
      have hlen := congrArg List.length hpromoted.nodes
      rw [List.length_map, List.length_map, Array.length_toList] at hlen
      exact hlen
    rw [hsize, hnoted]
    exact length_kept_add_notes _ _ _

/-- A manifest with an unknown topic between known ones, and one below it. -/
def nestedText : String :=
  "\x7b\"package\":\"Docs\",\"help_files\":\x7b\"index.txt\":[\"Index\",[\"sec\",\"Section\",[\"s\"]]]\x7d,"
    ++ "\"help_contents\":[\"index.txt\",\x7b\"topic\":\"lost\",\"children\":[\"sec\",\x7b\"topic\":\"s\","
    ++ "\"caption\":\"Again\",\"children\":[\x7b\"topic\":\"gone\",\"children\":[\"sec\"]\x7d]\x7d]\x7d]\x7d"

theorem nestedText_contentsLoaded : ∃ ix m,
    (load nestedText "Docs/hyperhelp.json").value = .ok ix ∧
    ContentsLoaded m "Docs/hyperhelp.json" ix (load nestedText "Docs/hyperhelp.json").events ∧
    ix.contents = ⟨#[⟨"index.txt", "index.txt", none, []⟩, ⟨"sec", "index.txt", none, []⟩,
      ⟨"s", "index.txt", some "Again", [3]⟩, ⟨"sec", "index.txt", none, []⟩], [0, 1, 2]⟩ := by
  have hcontents : (load nestedText "Docs/hyperhelp.json").value.toOption.map (·.contents) =
      some ⟨#[⟨"index.txt", "index.txt", none, []⟩, ⟨"sec", "index.txt", none, []⟩,
        ⟨"s", "index.txt", some "Again", [3]⟩, ⟨"sec", "index.txt", none, []⟩], [0, 1, 2]⟩ := by
    decide +kernel
  have hlocation : Resource.normalize "Docs/hyperhelp.json" = "Docs/hyperhelp.json" := by
    decide +kernel
  cases h : (load nestedText "Docs/hyperhelp.json").value with
  | error e =>
    rw [h] at hcontents
    cases hcontents
  | ok ix =>
    obtain ⟨m, -, hloaded⟩ := contentsLoaded_of_load h
    rw [hlocation] at hloaded
    rw [h] at hcontents
    exact ⟨ix, m, rfl, hloaded, Option.some.inj hcontents⟩

/-- The rows of a table of contents as declarations. -/
theorem declareAll_rows (d : Draft) (rows : List Contents.Row) :
    d.declareAll (rows.map fun r => .entry r.parent r.leaf) =
      { d with contents := d.contents.pushAll rows } := by
  induction rows generalizing d with
  | nil => rfl
  | cons r rows ih => exact ih (d.declare (.entry r.parent r.leaf))

/-- Declarations lead to every loaded index. -/
theorem isBuilt_of_load {text location : String} {ix : Index}
    (h : (load text location).value = .ok ix) : ix.IsBuilt := by
  obtain ⟨m, d, -, hd, rfl, -⟩ := load_cases h
  rw [addEntries_eq none [] 0]
  generalize Outline.rowsAll _ _ _ = rows
  refine ⟨m.package, documentRoot (Resource.normalize location) m.docRoot,
    (.description m.description :: .location (Resource.normalize location) ::
      (declarations m.files).1) ++ rows.map fun r => .entry r.parent r.leaf, ?_⟩
  rw [Draft.declareAll, List.foldl_append, ← Draft.declareAll, ← Draft.declareAll,
    declareAll_rows]
  rw [hd]
  rfl

end HelpAudit.Index
