import Treescript.Yaml.Basic
import Treescript.Yaml.Token

/-!
# Reading YAML

The part of YAML that documents are written in: block and flow collections, plain and quoted
scalars, comments, tags and document marks. Only the first document of a text is read. What stands
behind it is of no concern, as long as the next tokens can be cut from it.
-/

namespace Treescript.Yaml

/-- Tokens are taken one by one, until one does not fit. -/
abbrev Reading := StateT Tokens Option

namespace Reading

/-- The first token, when it may be taken. -/
def peek (fuel : Nat) : Reading Token := fun s => do
  let s ← s.ready fuel
  let token ← s.queue.head?
  some (token, s)

/-- Takes the first token. -/
def take : Reading Unit :=
  modify fun s => { s with queue := s.queue.tail, taken := s.taken + 1 }

/-- Takes the first token if it has a given form. -/
def takeIf (fuel : Nat) (form : TokenForm) : Reading Bool := do
  let token ← peek fuel
  if token.form == form then take
  return token.form == form

/-- Whether the first token has one of some forms. -/
def isAt (fuel : Nat) (forms : List TokenForm) : Reading Bool := do
  return forms.contains (← peek fuel).form

/-- The line of the first token. -/
def line (fuel : Nat) : Reading Nat := do return (← peek fuel).line

/-- A node, which is left out in front of some tokens. -/
def nodeUnless (fuel : Nat) (stops : List TokenForm) (node : Reading Yaml) : Reading Yaml := do
  if ← isAt fuel stops then return absent (← line fuel) else node

/-- The comma between two things in brackets. -/
def comma (fuel : Nat) : Reading Unit := do
  if !(← takeIf fuel .comma) then failure

/-- A tag, if there is one, whose handle is known. -/
def tag (fuel : Nat) : Reading (Option String) := do
  let token ← peek fuel
  match token.form with
  | .tag (some short) =>
    take
    return some short
  | .tag none => failure
  | _ => return none

mutual

/-- A node. In an entry of a block mapping the dashes of a sequence need not stand further to the
right. A tag may stand alone, for a scalar that is left out. -/
def node : Nat → Bool → Reading Yaml
  | 0, _ => failure
  | fuel + 1, inEntry => do
    let line ← line fuel
    let given ← tag fuel
    let tag := given.filter (· != "!")
    let token ← peek fuel
    match token.form with
    | .scalar isQuoted text =>
      take
      return .scalar ⟨line, tag, isQuoted, text⟩
    | .flowSequence =>
      take
      return .sequence line tag (← flowItems fuel true)
    | .flowMapping =>
      take
      return .mapping line tag (← flowEntries fuel true)
    | .blockSequence =>
      take
      return .sequence line tag (← blockItems fuel)
    | .blockMapping =>
      take
      return .mapping line tag (← blockEntries fuel)
    | form =>
      if inEntry && form == .dash then return .sequence line tag (← entryItems fuel)
      else if given.isSome then return .scalar ⟨line, tag, false, ""⟩
      else failure

/-- The items of a block sequence, to its end. -/
def blockItems : Nat → Reading (List Yaml)
  | 0 => failure
  | fuel + 1 => do
    if ← takeIf fuel .dash then
      let item ← nodeUnless fuel [.dash, .blockEnd] (node fuel false)
      return item :: (← blockItems fuel)
    else if ← takeIf fuel .blockEnd then return []
    else failure

/-- The items of a sequence in an entry of a block mapping, as long as there are dashes. -/
def entryItems : Nat → Reading (List Yaml)
  | 0 => failure
  | fuel + 1 => do
    if ← takeIf fuel .dash then
      let item ← nodeUnless fuel [.dash, .key, .colon, .blockEnd] (node fuel false)
      return item :: (← entryItems fuel)
    else return []

/-- The entries of a block mapping, to its end. -/
def blockEntries : Nat → Reading (List YamlEntry)
  | 0 => failure
  | fuel + 1 => do
    let line ← line fuel
    if ← takeIf fuel .key then
      let stops := [.key, .colon, .blockEnd]
      let key ← if ← isAt fuel stops then pure (absent line) else node fuel true
      let value ←
        if ← takeIf fuel .colon then nodeUnless fuel stops (node fuel true)
        else pure (absent line)
      return ⟨key, value⟩ :: (← blockEntries fuel)
    else if ← takeIf fuel .blockEnd then return []
    else failure

/-- The value of an entry in brackets, if there is a colon in front of it. -/
def flowValue : Nat → TokenForm → Reading Yaml
  | 0, _ => failure
  | fuel + 1, close => do
    if ← takeIf fuel .colon then nodeUnless fuel [.comma, close] (node fuel false)
    else return absent (← line fuel)

/-- The items of a sequence in brackets, to the closing one. A comma stands between two items. An
item may be a single entry of a mapping; if its key is left out, so is the token behind it. -/
def flowItems : Nat → Bool → Reading (List Yaml)
  | 0, _ => failure
  | fuel + 1, isFirst => do
    if ← takeIf fuel .flowSequenceEnd then return []
    if !isFirst then comma fuel
    if ← takeIf fuel .flowSequenceEnd then return []
    else
      let line ← line fuel
      let item ←
        if ← takeIf fuel .key then
          let key ←
            if ← isAt fuel [.colon, .comma, .flowSequenceEnd] then do
              take
              pure (absent line)
            else node fuel false
          let value ← flowValue fuel .flowSequenceEnd
          pure (.mapping line none [⟨key, value⟩])
        else node fuel false
      return item :: (← flowItems fuel false)

/-- The entries of a mapping in braces, to the closing one. A comma stands between two entries. -/
def flowEntries : Nat → Bool → Reading (List YamlEntry)
  | 0, _ => failure
  | fuel + 1, isFirst => do
    if ← takeIf fuel .flowMappingEnd then return []
    if !isFirst then comma fuel
    if ← takeIf fuel .flowMappingEnd then return []
    else if ← takeIf fuel .key then
      let key ← nodeUnless fuel [.colon, .comma, .flowMappingEnd] (node fuel false)
      let value ← flowValue fuel .flowMappingEnd
      return ⟨key, value⟩ :: (← flowEntries fuel false)
    else
      let key ← node fuel false
      let value := absent (← line fuel)
      return ⟨key, value⟩ :: (← flowEntries fuel false)

end

/-- The first document, if there is one. -/
def document (fuel : Nat) : Reading (Option Yaml) := do
  if (← peek fuel).form == .streamEnd then return none
  else
    let root ←
      if ← takeIf fuel .documentStart then
        nodeUnless fuel [.documentStart, .documentEnd, .streamEnd] (node fuel false)
      else node fuel false
    let _ ← peek fuel
    return some root

end Reading

/-- Characters that a YAML text may hold. -/
def isAllowed (c : Char) : Bool :=
  let n := c.toNat
  n == 0x09 || n == 0x0A || n == 0x0D || (0x20 ≤ n && n ≤ 0x7E) || n == 0x85 ||
    (0xA0 ≤ n && n ≤ 0xFFFD) || 0x10000 ≤ n

/-- A carriage return, alone or with a line feed behind it, becomes a line feed. -/
def unifyLines : List Char → List Char
  | '\r' :: '\n' :: rest => '\n' :: unifyLines rest
  | '\r' :: rest => '\n' :: unifyLines rest
  | c :: rest => c :: unifyLines rest
  | [] => []

/-- The first document of a text. The outer `none` says that the text is not YAML, the inner one
that there is no document. A byte order mark in front of it does not count. -/
def parse (text : String) : Option (Option Yaml) :=
  if !text.toList.all isAllowed then none
  else
    let cs := unifyLines text.toList
    let cs := if cs.head? == some '\uFEFF' then cs.drop 1 else cs
    (Reading.document (8 * cs.length + 64)).run' (.ofText cs)

end Treescript.Yaml
