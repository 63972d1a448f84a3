import HelpAudit.Proofs.Index.Precedence

/-!
What names lead to. A name leads to the topic with this id or, where there is none, to the topic
with the smallest id among those that list it as an alias, and nowhere if there is none of these
either. A table from aliases to ids, filled in order of the ids, leads to the same topics.
-/
namespace HelpAudit

/-- The id for which each alias stands: the first topic that lists an alias keeps it. -/
def Index.aliasTable (topics : NameMap Topic) : NameMap String :=
  topics.values.foldl
    (fun table t => t.aliases.foldl (fun table name => table.insertIfNew name t.id) table) .empty

namespace Index

/-- The topic has the name as its id or, if no topic has, it lists the name as an alias, and so does
none with a smaller id. -/
def StandsFor (ix : Index) (name : String) (t : Topic) : Prop :=
  t ∈ ix.topics.values ∧
    (t.id = name ∨
      (∀ u ∈ ix.topics.values, u.id ≠ name) ∧ name ∈ t.aliases ∧
        ∀ u ∈ ix.topics.values, name ∈ u.aliases → t.id ≤ u.id)

variable {ix : Index} {name : String} {t : Topic}

theorem find?_insertIfNew_foldl (names : List String) (table : NameMap String) (id key : String) :
    (names.foldl (fun table name => table.insertIfNew name id) table).find? key =
      (table.find? key).or (if key ∈ names then some id else none) := by
  induction names generalizing table with
  | nil => simp
  | cons name names ih =>
    rw [List.foldl_cons, ih, NameMap.find?_insertIfNew, Option.or_assoc]
    congr 1
    by_cases h : key = name <;> simp [h]

/-- An alias stands in the table with the id of the first topic that lists it. -/
theorem find?_aliasTable (topics : NameMap Topic) (name : String) :
    (aliasTable topics).find? name = (aliased? topics name).map (·.id) := by
  have hfill : ∀ (ts : List Topic) (table : NameMap String),
      (ts.foldl (fun table t =>
          t.aliases.foldl (fun table name => table.insertIfNew name t.id) table) table).find? name =
        (table.find? name).or ((ts.find? (·.aliases.contains name)).map (·.id)) := by
    intro ts
    induction ts with
    | nil => simp
    | cons t ts ih =>
      intro table
      rw [List.foldl_cons, ih, find?_insertIfNew_foldl, Option.or_assoc, List.find?_cons]
      congr 1
      by_cases h : name ∈ t.aliases <;> simp [h]
  exact hfill topics.values .empty

/-- Among topics in the order of their ids a search finds the one with the smallest id. -/
theorem find?_eq_some_iff_le {ts : List Topic} (hts : ts.Pairwise (·.id < ·.id))
    {p : Topic → Bool} : ts.find? p = some t ↔
      t ∈ ts ∧ p t = true ∧ ∀ u ∈ ts, p u = true → t.id ≤ u.id := by
  rw [List.find?_eq_some_iff_append]
  constructor
  · rintro ⟨ht, before, after, rfl, hbefore⟩
    refine ⟨by simp, ht, fun u hu hpu => ?_⟩
    rcases List.mem_append.mp hu with hu | hu
    · have hnot := hbefore u hu
      rw [hpu] at hnot
      cases hnot
    · rcases List.mem_cons.mp hu with rfl | hu
      · exact String.le_refl _
      · have hafter := (List.pairwise_cons.mp (List.pairwise_append.mp hts).2.1).1
        exact Std.le_of_lt (hafter u hu)
  · rintro ⟨hmem, ht, hle⟩
    obtain ⟨before, after, rfl⟩ := List.append_of_mem hmem
    refine ⟨ht, before, after, rfl, fun u hu => ?_⟩
    rw [Bool.not_eq_true']
    refine Bool.eq_false_iff.mpr fun hpu => ?_
    have hlt := (List.pairwise_append.mp hts).2.2 u hu t List.mem_cons_self
    exact absurd hlt (Std.not_lt.mpr (hle u (List.mem_append_left _ hu) hpu))

section Sound

variable (h : Sound ix.files ix.topics)
include h

theorem find?_eq_some_iff_mem : ix.topics.find? name = some t ↔
    t ∈ ix.topics.values ∧ t.id = name := by
  rw [NameMap.mem_values_iff]
  constructor
  · intro ht
    exact ⟨⟨name, ht⟩, h.keyed ht⟩
  · rintro ⟨⟨key, ht⟩, rfl⟩
    rwa [h.keyed ht]

theorem find?_eq_none_iff : ix.topics.find? name = none ↔
    ∀ u ∈ ix.topics.values, u.id ≠ name := by
  simp only [Option.eq_none_iff_forall_ne_some, ne_eq, find?_eq_some_iff_mem h, not_and]

/-- Of the topics with an alias the one with the smallest id is found. -/
theorem aliased?_eq_some_iff : aliased? ix.topics name = some t ↔
    t ∈ ix.topics.values ∧ name ∈ t.aliases ∧
      ∀ u ∈ ix.topics.values, name ∈ u.aliases → t.id ≤ u.id := by
  rw [aliased?, find?_eq_some_iff_le (pairwise_values h)]
  simp only [List.contains_iff_mem]

theorem lookup_eq_some_iff : ix.lookup name = some t ↔ ix.StandsFor name t := by
  rw [lookup, Option.or_eq_some_iff, find?_eq_some_iff_mem h, find?_eq_none_iff h,
    aliased?_eq_some_iff h]
  constructor
  · rintro (⟨ht, hid⟩ | ⟨hnone, ht, halias⟩)
    · exact ⟨ht, .inl hid⟩
    · exact ⟨ht, .inr ⟨hnone, halias⟩⟩
  · rintro ⟨ht, hid | ⟨hnone, halias⟩⟩
    · exact .inl ⟨ht, hid⟩
    · exact .inr ⟨hnone, ht, halias⟩

theorem lookup_eq_none_iff : ix.lookup name = none ↔
    ∀ u ∈ ix.topics.values, u.id ≠ name ∧ name ∉ u.aliases := by
  have halias : aliased? ix.topics name = none ↔ ∀ u ∈ ix.topics.values, name ∉ u.aliases := by
    simp [aliased?]
  rw [lookup, Option.or_eq_none_iff, find?_eq_none_iff h, halias]
  simp only [← forall_and]

/-- The table leads from an alias to a topic that lists it. -/
theorem bind_aliasTable : ((aliasTable ix.topics).find? name).bind ix.topics.find? =
    aliased? ix.topics name := by
  rw [find?_aliasTable]
  cases ht : aliased? ix.topics name with
  | none => rfl
  | some t => exact (find?_eq_some_iff_mem h).mpr ⟨((aliased?_eq_some_iff h).mp ht).1, rfl⟩

end Sound

open Declaration

/-- What looking names up finds in an index with these declarations. -/
structure LooksUp (ds : List Declaration) (ix : Index) : Prop where
  /-- A name leads to the topic for which it stands. -/
  found : ∀ name t, ix.lookup name = some t ↔ ix.StandsFor name t
  /-- It leads nowhere just when it is neither the id nor an alias of a topic. -/
  notFound : ∀ name, ix.lookup name = none ↔
    ∀ t ∈ ix.topics.values, t.id ≠ name ∧ name ∉ t.aliases
  /-- The ids are those of the declared topics and the paths of the declared files. -/
  ids : ∀ name, (∃ t ∈ ix.topics.values, t.id = name) ↔
    (∃ t, topic? ds name = some t) ∨ name ∈ ix.files.map (·.path)
  /-- No alias hides a declared topic, or the topic that a file has of its own. -/
  declared : ∀ name t, topic? ds name = some t → ix.lookup name = some t
  own : ∀ f ∈ ix.files, topic? ds f.path = none → ix.lookup f.path = some (Draft.ownTopic f)
  /-- An alias that is no id leads to a topic that lists it. -/
  aliased : ∀ t ∈ ix.topics.values, ∀ name ∈ t.aliases,
    (∀ u ∈ ix.topics.values, u.id ≠ name) → ∃ u, ix.lookup name = some u ∧ name ∈ u.aliases
  /-- By way of the table of aliases the same topics are found. -/
  table : ∀ name, ix.lookup name =
    (ix.topics.find? name).or (((aliasTable ix.topics).find? name).bind ix.topics.find?)
  /-- Each id in the table is that of a topic that lists the alias. -/
  entries : ∀ name id, (aliasTable ix.topics).find? name = some id →
    ∃ t, ix.topics.find? id = some t ∧ name ∈ t.aliases

theorem exists_id_iff {ds : List Declaration} (h : Sound ix.files ix.topics)
    (hrecords : ix.Records ds) : (∃ t ∈ ix.topics.values, t.id = name) ↔
      (∃ t, topic? ds name = some t) ∨ name ∈ ix.files.map (·.path) := by
  simp only [← find?_eq_some_iff_mem h]
  constructor
  · rintro ⟨t, ht⟩
    exact (hrecords.only name t ht).imp_left fun hfirst => ⟨t, hfirst⟩
  · intro hname
    cases hfirst : topic? ds name with
    | some t => exact ⟨t, hrecords.first name t hfirst⟩
    | none =>
      obtain ⟨t, ht⟩ | hfile := hname
      · rw [hfirst] at ht
        cases ht
      · obtain ⟨f, hf, rfl⟩ := List.mem_map.mp hfile
        exact ⟨_, hrecords.own f hf hfirst⟩

/-- In every index a name leads to the topic of this id, or else to the topic with the smallest id
of those with this alias, whatever clashes there are between ids, files and aliases. -/
theorem looksUp_ofDeclarations (package docRoot : String) (ds : List Declaration) :
    (ofDeclarations package docRoot ds).LooksUp ds := by
  have hbuilt : (ofDeclarations package docRoot ds).IsBuilt := ⟨package, docRoot, ds, rfl⟩
  have hsound := hbuilt.sound
  have hrecords : (ofDeclarations package docRoot ds).Records ds :=
    records_build (Draft.sound_declareAll (Draft.sound_start package docRoot) ds)
      (Draft.reflects_declareAll package docRoot ds)
  constructor
  case found => exact fun name t => lookup_eq_some_iff hsound
  case notFound => exact fun name => lookup_eq_none_iff hsound
  case ids => exact fun name => exists_id_iff hsound hrecords
  case declared => exact fun name t ht => lookup_of_find? (hrecords.first name t ht)
  case own => exact fun f hf hnone => lookup_of_find? (hrecords.own f hf hnone)
  case aliased =>
    intro t ht name hname hid
    cases hlookup : (ofDeclarations package docRoot ds).lookup name with
    | none => exact absurd hname ((lookup_eq_none_iff hsound).mp hlookup t ht).2
    | some u =>
      obtain ⟨hu, heq | ⟨-, halias, -⟩⟩ := (lookup_eq_some_iff hsound).mp hlookup
      · exact absurd heq (hid u hu)
      · exact ⟨u, rfl, halias⟩
  case table =>
    intro name
    rw [bind_aliasTable hsound]
    rfl
  case entries =>
    intro name id hid
    rw [find?_aliasTable] at hid
    obtain ⟨t, ht, rfl⟩ := Option.map_eq_some_iff.mp hid
    obtain ⟨hmem, halias, -⟩ := (aliased?_eq_some_iff hsound).mp ht
    exact ⟨t, (find?_eq_some_iff_mem hsound).mpr ⟨hmem, rfl⟩, halias⟩

/-- Aliases that are also an id, a path and an alias of another topic. -/
def crossed : List Declaration :=
  [.file "a.txt" "A", .topic ⟨"t2", "a.txt", "Two", ["t1", "a.txt", "both"]⟩,
    .topic ⟨"t1", "b.txt", "One", ["both"]⟩]

example : ["t1", "t2", "a.txt", "both", "b.txt"].map (fun name =>
      ((ofDeclarations "Docs" "Docs/help" crossed).lookup name).map (·.id)) =
    [some "t1", some "t2", some "a.txt", some "t1", none] := by decide +kernel

end Index

end HelpAudit
