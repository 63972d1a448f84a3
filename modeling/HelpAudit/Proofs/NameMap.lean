import HelpAudit.NameMap
import Mathlib.Data.List.Sort

/-! What a name map holds, seen through `find?`. -/
namespace HelpAudit.NameMap

variable {α : Type} {m : NameMap α} {name key : String} {value : α}

theorem names_pairwise (m : NameMap α) : m.names.Pairwise (· < ·) :=
  List.pairwise_map.mpr m.ascending

theorem nodup_names (m : NameMap α) : m.names.Nodup := by
  refine m.names_pairwise.imp fun {a b} hlt heq => ?_
  rw [heq] at hlt
  exact String.lt_irrefl b hlt

theorem lookup_eq_some_of_mem {es : List (String × α)} (hs : (es.map (·.1)).Nodup)
    (h : (name, value) ∈ es) : es.lookup name = some value := by
  induction es with
  | nil => simp at h
  | cons e es ih =>
    obtain ⟨hd, hes⟩ := List.nodup_cons.mp hs
    rw [lookup_cons]
    rcases List.mem_cons.mp h with rfl | h
    · simp
    · have hne : name ≠ e.1 := fun heq => hd (List.mem_map.mpr ⟨_, h, heq⟩)
      rw [if_neg hne]
      exact ih hes h

theorem mem_of_lookup_eq_some {es : List (String × α)} (h : es.lookup name = some value) :
    (name, value) ∈ es := by
  obtain ⟨before, after, rfl, -⟩ := List.lookup_eq_some_iff.mp h
  exact List.mem_append_right before List.mem_cons_self

theorem find?_eq_some_iff : m.find? name = some value ↔ (name, value) ∈ m.entries :=
  ⟨mem_of_lookup_eq_some, lookup_eq_some_of_mem m.nodup_names⟩

theorem mem_values_iff : value ∈ m.values ↔ ∃ name, m.find? name = some value := by
  simp only [values, List.mem_map, Prod.exists, find?_eq_some_iff]
  constructor
  · rintro ⟨name, v, h, rfl⟩
    exact ⟨name, h⟩
  · rintro ⟨name, h⟩
    exact ⟨name, value, h, rfl⟩

theorem mem_names_iff : name ∈ m.names ↔ m.contains name = true := by
  simp only [names, List.mem_map, Prod.exists, contains, Option.isSome_iff_exists,
    find?_eq_some_iff]
  constructor
  · rintro ⟨n, v, h, rfl⟩
    exact ⟨v, h⟩
  · rintro ⟨v, h⟩
    exact ⟨name, v, h, rfl⟩

theorem length_insertEntry {es : List (String × α)} (h : es.lookup name = none) :
    (insertEntry name value es).length = es.length + 1 := by
  induction es with
  | nil => rfl
  | cons e es ih =>
    rw [lookup_cons] at h
    split at h
    · cases h
    · next hne =>
      rw [insertEntry, if_neg hne]
      split
      · rfl
      · rw [List.length_cons, ih h, List.length_cons]

/-- A new name makes the map greater by one. -/
theorem size_insert (h : m.find? name = none) : (m.insert name value).size = m.size + 1 :=
  length_insertEntry h

/-- A name that is new takes the value, any other keeps what it has. -/
theorem find?_insertIfNew (m : NameMap α) (name key : String) (value : α) :
    (m.insertIfNew name value).find? key =
      (m.find? key).or (if key = name then some value else none) := by
  unfold insertIfNew
  split
  · next h =>
    by_cases hk : key = name
    · subst hk
      obtain ⟨v, hv⟩ := Option.isSome_iff_exists.mp h
      simp [hv]
    · simp [hk]
  · next h =>
    rw [find?_insert]
    split
    · next hk =>
      subst hk
      have hn : m.find? key = none := Option.not_isSome_iff_eq_none.mp h
      simp [hn]
    · simp

theorem contains_foldl_insert (es : List (String × α)) (m : NameMap α) :
    (es.foldl (fun m e => m.insert e.1 e.2) m).contains name = true ↔
      m.contains name = true ∨ name ∈ es.map (·.1) := by
  induction es generalizing m with
  | nil => simp
  | cons e es ih =>
    rw [List.foldl_cons, ih]
    by_cases h : name = e.1 <;> simp [contains, h]

/-- Entries with different names are found where they are put in. -/
theorem find?_foldl_insert {es : List (String × α)} (hs : (es.map (·.1)).Nodup) (m : NameMap α)
    (name : String) : (es.foldl (fun m e => m.insert e.1 e.2) m).find? name =
      (es.lookup name).or (m.find? name) := by
  induction es generalizing m with
  | nil => rfl
  | cons e es ih =>
    obtain ⟨hnew, hs⟩ := List.nodup_cons.mp hs
    rw [List.foldl_cons, ih hs, find?_insert, lookup_cons]
    split
    · next heq =>
      have hlater : es.lookup name = none := by
        refine Option.eq_none_iff_forall_ne_some.mpr fun value hvalue => hnew ?_
        exact List.mem_map.mpr ⟨_, mem_of_lookup_eq_some hvalue, heq⟩
      rw [hlater, Option.none_or, Option.some_or]
    · rfl

theorem mem_names_ofList {es : List (String × α)} :
    name ∈ (ofList es).names ↔ name ∈ es.map (·.1) := by
  rw [mem_names_iff, ofList, contains_foldl_insert]
  simp [contains]

/-- Maps that hold the same names list them alike. -/
theorem names_eq_of_contains {m' : NameMap α} (h : ∀ name, m.contains name = m'.contains name) :
    m.names = m'.names := by
  refine m.names_pairwise.eq_of_mem_iff m'.names_pairwise fun name => ?_
  rw [mem_names_iff, mem_names_iff, h]

/-- A map is what it finds. -/
theorem ext_find? {m' : NameMap α} (h : ∀ name, m.find? name = m'.find? name) : m = m' := by
  have hirrefl : Std.Irrefl fun a b : String × α => a.1 < b.1 := ⟨fun a => String.lt_irrefl a.1⟩
  have hantisymm : Std.Antisymm fun a b : String × α => a.1 < b.1 :=
    ⟨fun a b hab hba => absurd (String.lt_trans hab hba) (String.lt_irrefl a.1)⟩
  have hentries : m.entries = m'.entries := by
    refine m.ascending.eq_of_mem_iff m'.ascending fun e => ?_
    rw [← find?_eq_some_iff, ← find?_eq_some_iff, h]
  cases m
  cases m'
  exact (NameMap.mk.injEq ..).mpr hentries

end HelpAudit.NameMap
