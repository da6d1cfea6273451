import Treescript.Text.Quoted
import Treescript.Yaml.Parser
import Treescript.Yaml.Scalar

/-!
# Fitting nodes to what is wanted

A node is taken as a document, as a text, as a list of texts or as a record with known fields.
Whatever does not fit is noted with its line, and the rest is still looked at, so that all misfits
are found. Only a scalar that is not what its tag says, or a collection for a key, ends it at once.
-/

namespace Treescript

/-- The kinds of things that nodes are fitted to, as messages call them. -/
inductive Wanted where
  | program | documents | settings | texts | text
  deriving DecidableEq, Repr

def Wanted.name : Wanted → String
  | program => "fixtures.document"
  | documents => "[]interface \x7b\x7d"
  | settings => "config.Config"
  | texts => "[]string"
  | text => "string"

/-- What does not fit, and on which line. -/
inductive Misfit where
  | duplicateKey (line : Nat) (key : String) (firstLine : Nat)
  | unknownField (line : Nat) (name : String) (wanted : Wanted)
  /-- A scalar where something else is wanted. -/
  | scalar (line : Nat) (tag text : String) (wanted : Wanted)
  /-- A collection where something else is wanted. -/
  | collection (line : Nat) (tag : String) (wanted : Wanted)

namespace Misfit

/-- The characters of a text that lie in its first `bytes` bytes, with a mark for every byte of a
character that is cut. -/
def firstBytes (bytes : Nat) : List Char → List Char
  | [] => []
  | c :: rest =>
    if c.utf8Size ≤ bytes then c :: firstBytes (bytes - c.utf8Size) rest
    else List.replicate bytes '\uFFFD'

/-- A long text is cut short. -/
def excerpt (s : String) : String :=
  if 10 < s.utf8ByteSize then String.ofList (firstBytes 7 s.toList) ++ "..." else s

def message : Misfit → String
  | duplicateKey line key firstLine =>
    "line " ++ toString line ++ ": mapping key " ++ Text.quote key ++
      " already defined at line " ++ toString firstLine
  | unknownField line name wanted =>
    "line " ++ toString line ++ ": field " ++ name ++ " not found in type " ++ wanted.name
  | scalar line tag text wanted =>
    "line " ++ toString line ++ ": cannot unmarshal " ++ tag ++ " `" ++ excerpt text ++
      "` into " ++ wanted.name
  | collection line tag wanted =>
    let text := if tag == "!!seq" || tag == "!!map" then "" else " ``"
    "line " ++ toString line ++ ": cannot unmarshal " ++ tag ++ text ++ " into " ++ wanted.name

/-- The message for all misfits of a text. -/
def report (misfits : List Misfit) : String :=
  "yaml: unmarshal errors:" ++ String.join (misfits.map fun m => "\n  " ++ m.message)

end Misfit

/-- Fitting gathers misfits, unless it ends at once. -/
abbrev Fitting := StateT (List Misfit) Option

namespace Fitting

def note (m : Misfit) : Fitting Unit := modify (· ++ [m])

def meaning (s : YamlScalar) : Fitting Document :=
  match s.meaning? with
  | some d => pure d
  | none => failure

/-- Notes that a scalar with some meaning is not what is wanted. -/
def notScalar (s : YamlScalar) (d : Document) (wanted : Wanted) : Fitting Unit :=
  note (.scalar s.line (s.tag.getD (YamlScalar.tagOf d)) s.text wanted)

/-- Notes that a sequence is not what is wanted. -/
def notSequence (line : Nat) (tag : Option String) (wanted : Wanted) : Fitting Unit :=
  note (.collection line (tag.getD "!!seq") wanted)

/-- Notes that a mapping is not what is wanted. -/
def notMapping (line : Nat) (tag : Option String) (wanted : Wanted) : Fitting Unit :=
  note (.collection line (tag.getD "!!map") wanted)

/-- Keys are the same if they are scalars with one text, or collections of one sort. -/
def sameKey : Yaml → Yaml → Bool
  | .scalar s, .scalar t => s.text == t.text
  | .sequence _ _ _, .sequence _ _ _ => true
  | .mapping _ _ _, .mapping _ _ _ => true
  | _, _ => false

def keyText : Yaml → String
  | .scalar s => s.text
  | _ => ""

/-- Every later entry with the key of an earlier one. -/
def duplicates : List YamlEntry → List Misfit
  | [] => []
  | e :: rest =>
    (rest.filter fun later => sameKey e.key later.key).map
      (fun later => .duplicateKey later.key.line (keyText later.key) e.key.line) ++
      duplicates rest

/-- Notes duplicate keys, and tells whether there are none. -/
def unique (entries : List YamlEntry) : Fitting Bool := do
  let found := duplicates entries
  modify (· ++ found)
  return found.isEmpty

/-- Whether a key is a text. -/
def isTextKey : Yaml → Fitting Bool
  | .scalar s => do
    match ← meaning s with
    | .text _ => return true
    | _ => return false
  | _ => return false

def areTextKeys : List YamlEntry → Fitting Bool
  | [] => return true
  | e :: rest => do
    if ← isTextKey e.key then areTextKeys rest else return false

mutual

/-- Takes any node as a document. -/
def document : Yaml → Fitting Document
  | .scalar s => meaning s
  | .sequence _ _ items => return .list (← documents items)
  | .mapping _ _ entries => do
    if ← unique entries then
      if ← areTextKeys entries then return .mapping (← fields entries)
      else
        keyed entries
        return .keyed
    else return .null

def documents : List Yaml → Fitting (List Document)
  | [] => return []
  | y :: rest => do
    let first ← document y
    return first :: (← documents rest)

/-- The fields of a mapping with texts for keys. -/
def fields : List YamlEntry → Fitting (List (String × Document))
  | [] => return []
  | ⟨key, value⟩ :: rest => do
    let first ← document value
    return (keyText key, first) :: (← fields rest)

/-- The entries of any other mapping, whose keys have to be scalars. -/
def keyed : List YamlEntry → Fitting Unit
  | [] => return ()
  | ⟨key, value⟩ :: rest => do
    match ← document key with
    | .list _ => failure
    | .mapping _ => failure
    | .keyed => failure
    | _ => pure ()
    let _ ← document value
    keyed rest

end

/-- Takes a node as a text: any scalar but null, by what is written. -/
def text? : Yaml → Fitting (Option String)
  | .scalar s => do
    match ← meaning s with
    | .null => return none
    | _ => return some s.text
  | .sequence line tag _ => do
    notSequence line tag .text
    return none
  | .mapping line tag entries => do
    if ← unique entries then notMapping line tag .text
    return none

/-- The texts among the items of a list. -/
def textItems : List Yaml → Fitting (List String)
  | [] => return []
  | y :: rest => do
    let first ← text? y
    return first.toList ++ (← textItems rest)

/-- Takes a node as a list; a null one counts as empty. -/
def list {α : Type} (wanted : Wanted) (items : List Yaml → Fitting (List α)) :
    Yaml → Fitting (List α)
  | .scalar s => do
    match ← meaning s with
    | .null => return []
    | d =>
      notScalar s d wanted
      return []
  | .sequence _ _ ys => items ys
  | .mapping line tag entries => do
    if ← unique entries then notMapping line tag wanted
    return []

/-- Reads the entries of a record one by one into `field`, which knows the fields there are. -/
def recordFields {α : Type} (wanted : Wanted)
    (field : String → Option (Yaml → α → Fitting α)) : List YamlEntry → α → Fitting α
  | [], record => return record
  | ⟨key, value⟩ :: rest, record => do
    match ← text? key with
    | none => recordFields wanted field rest record
    | some name =>
      match field name with
      | some read => recordFields wanted field rest (← read value record)
      | none =>
        note (.unknownField key.line name wanted)
        recordFields wanted field rest record

/-- Takes a node as a record; a null one changes nothing. -/
def record {α : Type} (wanted : Wanted) (field : String → Option (Yaml → α → Fitting α))
    (start : α) : Yaml → Fitting α
  | .scalar s => do
    match ← meaning s with
    | .null => return start
    | d =>
      notScalar s d wanted
      return start
  | .sequence line tag _ => do
    notSequence line tag wanted
    return start
  | .mapping _ _ entries => do
    if ← unique entries then recordFields wanted field entries start else return start

end Fitting

/-- Why a text cannot be used. -/
inductive Unfit where
  /-- Not YAML, or a scalar that is not what its tag says. -/
  | malformed
  | misfits (ms : List Misfit)

namespace Unfit

def message : Unfit → String
  | malformed => "yaml: malformed text"
  | misfits ms => Misfit.report ms

end Unfit

/-- What a node is fitted to, if all of it fits. -/
def Fitting.complete {α : Type} (fit : Fitting α) : Except Unfit α :=
  match fit.run [] with
  | none => .error .malformed
  | some (a, []) => .ok a
  | some (_, ms) => .error (.misfits ms)

/-- A YAML text, of which nothing may be left. -/
def Yaml.read (text : String) : Except Unfit (Option Yaml) :=
  match Yaml.parse text with
  | none => .error .malformed
  | some y => .ok y

end Treescript
