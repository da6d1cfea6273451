/-!
# Name maps

A finite map from names to values that keeps the order in which names were first bound. Its view is
`get?`; every other operation is described by what it does to the view.
-/

namespace Treescript

/-- The list with the value of `name` replaced, or added at the end. -/
def bindEntry {α : Type} (name : String) (value : α) : List (String × α) → List (String × α)
  | [] => [(name, value)]
  | (k, v) :: rest => if k = name then (k, value) :: rest else (k, v) :: bindEntry name value rest

theorem lookup_bindEntry {α : Type} (name key : String) (value : α)
    (entries : List (String × α)) :
    (bindEntry name value entries).lookup key =
      if key = name then some value else entries.lookup key := by
  induction entries with
  | nil =>
    by_cases h : key = name
    · subst h; simp [bindEntry]
    · have hb : (key == name) = false := by simpa using h
      simp [bindEntry, List.lookup_cons, hb, h]
  | cons entry rest ih =>
    obtain ⟨k, v⟩ := entry
    by_cases hk : k = name
    · subst hk
      by_cases h : key = k
      · subst h; simp [bindEntry]
      · have hb : (key == k) = false := by simpa using h
        simp [bindEntry, List.lookup_cons, hb, h]
    · by_cases h : key = k
      · subst h; simp [bindEntry, hk]
      · have hb : (key == k) = false := by simpa using h
        simp [bindEntry, hk, List.lookup_cons, hb, ih]

structure NameMap (α : Type) where
  entries : List (String × α)

namespace NameMap

variable {α : Type}

def empty : NameMap α := ⟨[]⟩

instance : Inhabited (NameMap α) := ⟨empty⟩

/-- The value bound to a name. -/
def get? (m : NameMap α) (name : String) : Option α := m.entries.lookup name

def contains (m : NameMap α) (name : String) : Bool := (m.get? name).isSome

/-- Binds a name, in place of any value it had. -/
def insert (m : NameMap α) (name : String) (value : α) : NameMap α :=
  ⟨bindEntry name value m.entries⟩

/-- Binds the names of a list from left to right. -/
def insertAll (m : NameMap α) (entries : List (String × α)) : NameMap α :=
  entries.foldl (fun m e => m.insert e.1 e.2) m

def ofList (entries : List (String × α)) : NameMap α := empty.insertAll entries

def size (m : NameMap α) : Nat := m.entries.length

def names (m : NameMap α) : List String := m.entries.map Prod.fst

@[simp] theorem get?_empty (name : String) : (empty : NameMap α).get? name = none := rfl

@[simp] theorem get?_insert (m : NameMap α) (name key : String) (value : α) :
    (m.insert name value).get? key = if key = name then some value else m.get? key :=
  lookup_bindEntry name key value m.entries

theorem get?_insert_self (m : NameMap α) (name : String) (value : α) :
    (m.insert name value).get? name = some value := by simp

theorem get?_insert_of_ne (m : NameMap α) {name key : String} (h : key ≠ name) (value : α) :
    (m.insert name value).get? key = m.get? key := by simp [h]

@[simp] theorem contains_insert (m : NameMap α) (name key : String) (value : α) :
    (m.insert name value).contains key = (key = name || m.contains key) := by
  by_cases h : key = name <;> simp [contains, h]

end NameMap

end Treescript
