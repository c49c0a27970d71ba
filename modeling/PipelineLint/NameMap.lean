/-! # Maps from names

A map from names to values that keeps the order in which its names were first inserted. Inserting under
a name that is there replaces the value and leaves the name at its place.
-/

namespace PipelineLint

/-- A map from names in insertion order. -/
structure NameMap (α : Type u) where
  entries : List (String × α) := []
  deriving Repr

namespace NameMap

variable {α : Type u}

instance : EmptyCollection (NameMap α) := ⟨⟨[]⟩⟩

instance : Inhabited (NameMap α) := ⟨∅⟩

def get? (m : NameMap α) (name : String) : Option α :=
  (m.entries.find? (·.1 == name)).map (·.2)

def contains (m : NameMap α) (name : String) : Bool :=
  m.entries.any (·.1 == name)

def setIn (name : String) (value : α) : List (String × α) → List (String × α)
  | [] => [(name, value)]
  | entry :: entries =>
    if entry.1 == name then (entry.1, value) :: entries else entry :: setIn name value entries

def insert (m : NameMap α) (name : String) (value : α) : NameMap α :=
  ⟨setIn name value m.entries⟩

def modify (m : NameMap α) (name : String) (f : α → α) : NameMap α :=
  ⟨m.entries.map fun entry => if entry.1 == name then (entry.1, f entry.2) else entry⟩

def erase (m : NameMap α) (name : String) : NameMap α :=
  ⟨m.entries.filter (·.1 != name)⟩

def keys (m : NameMap α) : List String := m.entries.map (·.1)

def values (m : NameMap α) : List α := m.entries.map (·.2)

def size (m : NameMap α) : Nat := m.entries.length

def isEmpty (m : NameMap α) : Bool := m.entries.isEmpty

/-- The map that results from inserting entries one after the other. -/
def ofList (entries : List (String × α)) : NameMap α :=
  entries.foldl (fun m entry => m.insert entry.1 entry.2) ∅

@[simp] theorem get?_empty (name : String) : (∅ : NameMap α).get? name = none := rfl

theorem get?_insert_self (m : NameMap α) (name : String) (value : α) :
    (m.insert name value).get? name = some value := by
  obtain ⟨entries⟩ := m
  simp only [insert, get?]
  induction entries with
  | nil => simp [setIn]
  | cons entry entries ih =>
    by_cases h : (entry.1 == name) = true
    · simp [setIn, h]
    · simpa [setIn, h] using ih

theorem get?_insert_of_ne (m : NameMap α) {name other : String} (value : α) (h : other ≠ name) :
    (m.insert name value).get? other = m.get? other := by
  obtain ⟨entries⟩ := m
  simp only [insert, get?]
  induction entries with
  | nil => simp [setIn, Ne.symm h]
  | cons entry entries ih =>
    by_cases h' : entry.1 = name
    · simp [setIn, h', Ne.symm h]
    · by_cases h'' : entry.1 = other
      · simp [setIn, h'', h]
      · simpa [setIn, h', h''] using ih

theorem contains_eq_isSome_get? (m : NameMap α) (name : String) :
    m.contains name = (m.get? name).isSome := by
  obtain ⟨entries⟩ := m
  simp only [contains, get?, Option.isSome_map]
  induction entries with
  | nil => rfl
  | cons entry entries ih => cases h : entry.1 == name <;> simp [h, ih]

theorem get?_modify_self (m : NameMap α) (name : String) (f : α → α) :
    (m.modify name f).get? name = (m.get? name).map f := by
  obtain ⟨entries⟩ := m
  simp only [modify, get?]
  induction entries with
  | nil => rfl
  | cons entry entries ih =>
    by_cases h : entry.1 = name
    · simp [h]
    · simpa [h] using ih

theorem get?_modify_of_ne (m : NameMap α) {name other : String} (f : α → α) (h : other ≠ name) :
    (m.modify name f).get? other = m.get? other := by
  obtain ⟨entries⟩ := m
  simp only [modify, get?]
  induction entries with
  | nil => rfl
  | cons entry entries ih =>
    by_cases h' : entry.1 = name
    · simpa [h', Ne.symm h] using ih
    · by_cases h'' : entry.1 = other
      · simp [h'', h]
      · simpa [h', h''] using ih

end NameMap

end PipelineLint
