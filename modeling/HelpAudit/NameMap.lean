/-! Finite maps from names, kept in ascending order of the names' UTF-8 bytes. -/
namespace HelpAudit

/-- `<` on strings compares code points, which is the order of their UTF-8 bytes. -/
structure NameMap (α : Type) where
  entries : List (String × α)
  ascending : entries.Pairwise (·.1 < ·.1)

namespace NameMap

variable {α : Type}

def empty : NameMap α := ⟨[], .nil⟩

instance : Inhabited (NameMap α) := ⟨empty⟩

def size (m : NameMap α) : Nat := m.entries.length
def names (m : NameMap α) : List String := m.entries.map (·.1)
def values (m : NameMap α) : List α := m.entries.map (·.2)

def find? (m : NameMap α) (name : String) : Option α := m.entries.lookup name
def contains (m : NameMap α) (name : String) : Bool := (m.find? name).isSome

/-- The new entry stands before the first greater name; an equal name gives way to it. -/
def insertEntry (name : String) (value : α) : List (String × α) → List (String × α)
  | [] => [(name, value)]
  | e :: es =>
    if name < e.1 then (name, value) :: e :: es
    else if name = e.1 then (name, value) :: es
    else e :: insertEntry name value es

theorem mem_insertEntry {name : String} {value : α} {e : String × α} {es : List (String × α)}
    (h : e ∈ insertEntry name value es) : e = (name, value) ∨ e ∈ es := by
  induction es with
  | nil => simpa [insertEntry] using h
  | cons d es ih => grind [insertEntry]

theorem insertEntry_ascending (name : String) (value : α) {es : List (String × α)}
    (h : es.Pairwise (·.1 < ·.1)) : (insertEntry name value es).Pairwise (·.1 < ·.1) := by
  induction es with
  | nil => simp [insertEntry]
  | cons d es ih =>
    obtain ⟨hd, hes⟩ := List.pairwise_cons.mp h
    rw [insertEntry]
    split
    · next hlt => exact List.pairwise_cons.mpr ⟨by
        intro e he
        rcases List.mem_cons.mp he with rfl | he
        · exact hlt
        · exact String.lt_trans hlt (hd e he), h⟩
    · next hge =>
      split
      · next heq => exact List.pairwise_cons.mpr ⟨fun e he => heq ▸ hd e he, hes⟩
      · next hne =>
        refine List.pairwise_cons.mpr ⟨fun e he => ?_, ih hes⟩
        rcases mem_insertEntry he with rfl | he
        · exact Std.lt_of_le_of_ne (Std.not_lt.mp hge) (Ne.symm hne)
        · exact hd e he

def insert (m : NameMap α) (name : String) (value : α) : NameMap α :=
  ⟨insertEntry name value m.entries, insertEntry_ascending name value m.ascending⟩

/-- Keeps the value that is there. -/
def insertIfNew (m : NameMap α) (name : String) (value : α) : NameMap α :=
  if m.contains name then m else m.insert name value

def erase (m : NameMap α) (name : String) : NameMap α :=
  ⟨m.entries.filter (·.1 != name), m.ascending.filter _⟩

/-- Of two pairs with one name the later stands. -/
def ofList (es : List (String × α)) : NameMap α := es.foldl (fun m e => m.insert e.1 e.2) empty

@[simp] theorem find?_empty (name : String) : (empty : NameMap α).find? name = none := rfl

theorem lookup_cons (key : String) (e : String × α) (es : List (String × α)) :
    (e :: es).lookup key = if key = e.1 then some e.2 else es.lookup key := by
  obtain ⟨name, value⟩ := e
  rw [List.lookup_cons]
  by_cases h : key = name
  · simp [h]
  · have hb : (key == name) = false := beq_false_of_ne h
    simp [hb, h]

theorem lookup_insertEntry (name key : String) (value : α) (es : List (String × α)) :
    (insertEntry name value es).lookup key = if key = name then some value else es.lookup key := by
  induction es with
  | nil => simp [insertEntry, lookup_cons]
  | cons d es ih => grind [insertEntry, lookup_cons]

@[simp] theorem find?_insert (m : NameMap α) (name key : String) (value : α) :
    (m.insert name value).find? key = if key = name then some value else m.find? key :=
  lookup_insertEntry name key value m.entries

theorem lookup_filter_ne (name key : String) (es : List (String × α)) :
    (es.filter (·.1 != name)).lookup key = if key = name then none else es.lookup key := by
  induction es with
  | nil => simp
  | cons d es ih => by_cases h : d.1 = name <;> grind [lookup_cons]

@[simp] theorem find?_erase (m : NameMap α) (name key : String) :
    (m.erase name).find? key = if key = name then none else m.find? key :=
  lookup_filter_ne name key m.entries

end NameMap

end HelpAudit
