import HelpAudit.Index.Draft
import HelpAudit.Proofs.NameMap

/-! Built indexes: each file stands once, each topic under its own id, and names are looked up the
same way before and after the files get their own topics. -/
namespace HelpAudit

/-- Files have distinct paths and topics stand under their ids. -/
structure Index.Sound (files : List HelpFile) (topics : NameMap Topic) : Prop where
  paths_nodup : (files.map (·.path)).Nodup
  keyed : ∀ {name t}, topics.find? name = some t → t.id = name

namespace Draft

open Index

theorem paths_setTitle (path title : String) (fs : List HelpFile) :
    (setTitle path title fs).map (·.path) =
      if path ∈ fs.map (·.path) then fs.map (·.path) else fs.map (·.path) ++ [path] := by
  induction fs with
  | nil => simp [setTitle]
  | cons f fs ih =>
    unfold setTitle
    by_cases h : f.path = path
    · simp [h]
    · have hne : path ≠ f.path := Ne.symm h
      rw [if_neg h, List.map_cons, ih, List.map_cons]
      by_cases hm : path ∈ fs.map (·.path)
      · rw [if_pos hm, if_pos (List.mem_cons_of_mem _ hm)]
      · rw [if_neg hm, if_neg (by simp [hne, hm]), List.cons_append]

theorem nodup_setTitle {fs : List HelpFile} (path title : String)
    (h : (fs.map (·.path)).Nodup) : ((setTitle path title fs).map (·.path)).Nodup := by
  rw [paths_setTitle]
  split
  · exact h
  · next hm =>
    rw [← List.concat_eq_append]
    exact h.concat hm

theorem sound_start (package docRoot : String) :
    Sound (start package docRoot).files (start package docRoot).topics where
  paths_nodup := .nil
  keyed h := by simp [start] at h

theorem keyed_addTopic {d : Draft} (h : ∀ {name t}, d.topics.find? name = some t → t.id = name)
    (t : Topic) {name : String} {u : Topic} (hu : (d.addTopic t).topics.find? name = some u) :
    u.id = name := by
  unfold addTopic at hu
  split at hu
  · exact h hu
  · rw [NameMap.find?_insert] at hu
    split at hu
    · next heq => rw [heq, Option.some.inj hu]
    · exact h hu

/-- A topic that is declared leaves the rest of the draft alone. -/
theorem exists_addTopic_eq (d : Draft) (t : Topic) :
    ∃ topics events, d.addTopic t = { d with topics := topics, events := events } := by
  unfold addTopic
  split
  · exact ⟨_, _, rfl⟩
  · exact ⟨_, _, rfl⟩

theorem files_addTopic (d : Draft) (t : Topic) : (d.addTopic t).files = d.files := by
  obtain ⟨topics, events, h⟩ := d.exists_addTopic_eq t
  rw [h]

theorem sound_declare {d : Draft} (h : Sound d.files d.topics) (decl : Declaration) :
    Sound (d.declare decl).files (d.declare decl).topics := by
  cases decl with
  | description text => exact h
  | location path => exact h
  | file path title => exact ⟨nodup_setTitle path title h.paths_nodup, h.keyed⟩
  | topic t =>
    refine ⟨?_, keyed_addTopic h.keyed t⟩
    rw [declare, files_addTopic]
    exact h.paths_nodup
  | entry parent node => exact h
  | edge parent child => exact h

theorem sound_declareAll {d : Draft} (h : Sound d.files d.topics) (ds : List Declaration) :
    Sound (d.declareAll ds).files (d.declareAll ds).topics := by
  induction ds generalizing d with
  | nil => exact h
  | cons decl ds ih => exact ih (sound_declare h decl)

theorem find?_foldl_ownTopic (fs : List HelpFile) (topics : NameMap Topic) (name : String) :
    (fs.foldl (fun ts f => ts.insertIfNew f.path (ownTopic f)) topics).find? name =
      (topics.find? name).or ((fs.find? (·.path == name)).map ownTopic) := by
  induction fs generalizing topics with
  | nil => simp
  | cons f fs ih =>
    rw [List.foldl_cons, ih, NameMap.find?_insertIfNew, List.find?_cons, Option.or_assoc]
    by_cases h : name = f.path
    · simp [h]
    · have hne : (f.path == name) = false := beq_false_of_ne (Ne.symm h)
      simp [h, hne]

/-- A topic that is declared comes before a file of its name. -/
theorem find?_build_topics (d : Draft) (name : String) :
    d.build.topics.find? name =
      (d.topics.find? name).or ((d.files.find? (·.path == name)).map ownTopic) :=
  find?_foldl_ownTopic d.files d.topics name

theorem sound_build {d : Draft} (h : Sound d.files d.topics) :
    Sound d.build.files d.build.topics where
  paths_nodup := h.paths_nodup
  keyed := by
    intro name t ht
    rw [find?_build_topics, Option.or_eq_some_iff] at ht
    rcases ht with ht | ⟨-, ht⟩
    · exact h.keyed ht
    · obtain ⟨f, hf, rfl⟩ := Option.map_eq_some_iff.mp ht
      exact beq_iff_eq.mp (List.find?_some hf :)

theorem find?_insertEntry_values {es : List (String × Topic)} {name : String} {t : Topic}
    {p : Topic → Bool} (hn : es.lookup name = none) (hp : p t = false) :
    ((NameMap.insertEntry name t es).map (·.2)).find? p = (es.map (·.2)).find? p := by
  induction es with
  | nil => simp [NameMap.insertEntry, hp]
  | cons e es ih =>
    rw [NameMap.lookup_cons] at hn
    unfold NameMap.insertEntry
    split
    · simp [hp]
    · split
      · next heq => simp [heq] at hn
      · next hne =>
        rw [if_neg hne] at hn
        rw [List.map_cons, List.map_cons, List.find?_cons, List.find?_cons, ih hn]

/-- A file's own topic has no alias, so aliases lead where they led. -/
theorem aliased?_insertIfNew_ownTopic (topics : NameMap Topic) (f : HelpFile) (name : String) :
    aliased? (topics.insertIfNew f.path (ownTopic f)) name = aliased? topics name := by
  unfold NameMap.insertIfNew
  split
  · rfl
  · next h =>
    have hn : topics.entries.lookup f.path = none := Option.not_isSome_iff_eq_none.mp h
    exact find?_insertEntry_values hn (by simp [ownTopic])

theorem aliased?_build (d : Draft) (name : String) :
    aliased? d.build.topics name = aliased? d.topics name := by
  have hfold : ∀ (fs : List HelpFile) (topics : NameMap Topic),
      aliased? (fs.foldl (fun ts f => ts.insertIfNew f.path (ownTopic f)) topics) name =
        aliased? topics name := by
    intro fs
    induction fs with
    | nil => intro topics; rfl
    | cons f fs ih =>
      intro topics
      rw [List.foldl_cons, ih, aliased?_insertIfNew_ownTopic]
  exact hfold d.files d.topics

/-- The table of contents and the finished index find the same file for every name. -/
theorem fileFor?_eq_lookup_build (d : Draft) (name : String) :
    d.fileFor? name = (d.build.lookup name).map (·.file) := by
  have hown : (d.files.find? (·.path == name)).map (·.path) =
      ((d.files.find? (·.path == name)).map ownTopic).map (·.file) := by
    rw [Option.map_map]
    rfl
  rw [fileFor?, Index.lookup, find?_build_topics, aliased?_build, hown, Option.or_assoc,
    Option.map_or, Option.map_or]

end Draft

namespace Index

theorem IsBuilt.sound {ix : Index} (h : ix.IsBuilt) : Sound ix.files ix.topics := by
  obtain ⟨package, docRoot, ds, rfl⟩ := h
  exact Draft.sound_build (Draft.sound_declareAll (Draft.sound_start package docRoot) ds)

variable {ix : Index}

theorem file?_of_mem (h : (ix.files.map (·.path)).Nodup) {f : HelpFile} (hf : f ∈ ix.files) :
    ix.file? f.path = some f := by
  unfold file?
  generalize ix.files = fs at h hf
  induction fs with
  | nil => simp at hf
  | cons g fs ih =>
    obtain ⟨hg, hfs⟩ := List.nodup_cons.mp h
    rcases List.mem_cons.mp hf with rfl | hf
    · simp
    · have hne : g.path ≠ f.path := fun heq => hg (List.mem_map.mpr ⟨f, hf, heq.symm⟩)
      rw [List.find?_cons, beq_false_of_ne hne]
      exact ih hfs hf

theorem title?_of_mem (h : (ix.files.map (·.path)).Nodup) {f : HelpFile} (hf : f ∈ ix.files) :
    ix.title? f.path = some f.title := by
  rw [title?, file?_of_mem h hf, Option.map_some]

/-- What a name leads to stands in the index under its own id. -/
theorem find?_id_of_lookup (h : Sound ix.files ix.topics) {name : String} {t : Topic}
    (ht : ix.lookup name = some t) : ix.topics.find? t.id = some t := by
  rcases Option.or_eq_some_iff.mp ht with ht | ⟨-, ht⟩
  · rw [h.keyed ht, ht]
  · obtain ⟨name', hn⟩ := NameMap.mem_values_iff.mp (List.mem_of_find?_eq_some ht)
    rw [h.keyed hn, hn]

theorem lookup_of_find? {name : String} {t : Topic} (ht : ix.topics.find? name = some t) :
    ix.lookup name = some t := by
  rw [lookup, ht, Option.some_or]

theorem mem_topicsOf (h : Sound ix.files ix.topics) {file : String} {t : Topic} :
    t ∈ ix.topicsOf file ↔ ix.topics.find? t.id = some t ∧ t.file = file := by
  rw [topicsOf, List.mem_filter, NameMap.mem_values_iff, beq_iff_eq]
  constructor
  · rintro ⟨⟨name, hn⟩, hf⟩
    rw [h.keyed hn]
    exact ⟨hn, hf⟩
  · rintro ⟨hn, hf⟩
    exact ⟨⟨t.id, hn⟩, hf⟩

end Index

end HelpAudit
