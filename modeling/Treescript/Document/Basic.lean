/-!
# Documents

A document is a tree of mappings, lists and scalars, as a data format describes it and before
anything is known about the program it encodes.
-/

namespace Treescript

inductive Document where
  | null
  | bool (b : Bool)
  | int (n : Int64)
  /-- A whole number beyond the signed range. -/
  | natural (n : UInt64)
  | float (x : Float)
  | text (s : String)
  | timestamp
  | list (items : List Document)
  /-- A mapping with texts for keys, each once. -/
  | mapping (fields : List (String × Document))
  /-- A mapping in which some key is not a text. -/
  | keyed

namespace Document

/-- What messages call a document of this kind. -/
def typeName : Document → String
  | null => "<nil>"
  | bool _ => "bool"
  | int _ => "int"
  | natural _ => "uint64"
  | float _ => "float64"
  | text _ => "string"
  | timestamp => "time.Time"
  | list _ => "[]interface \x7b\x7d"
  | mapping _ => "map[string]interface \x7b\x7d"
  | keyed => "map[interface \x7b\x7d]interface \x7b\x7d"

theorem sizeOf_lt_of_lookup {fields : List (String × Document)} {key : String} {d : Document}
    (h : fields.lookup key = some d) : sizeOf d < sizeOf (mapping fields) := by
  induction fields with
  | nil => simp at h
  | cons field rest ih =>
    obtain ⟨k, v⟩ := field
    rw [List.lookup_cons] at h
    split at h
    · cases h
      simp; omega
    · have := ih h
      simp at this ⊢
      omega

/-- A value found under a key of a mapping, unless it is null. -/
def field? (fields : List (String × Document)) (key : String) :
    Option { d : Document // sizeOf d < sizeOf (mapping fields) } :=
  match h : fields.lookup key with
  | none => none
  | some null => none
  | some d => some ⟨d, sizeOf_lt_of_lookup h⟩

end Document

end Treescript
