import Treescript.Yaml.Spelling

/-!
# YAML tokens

A text is cut into tokens from left to right, a few at a time. Block collections have no brackets:
tokens that stand for these are made up from the columns. A key is recognised only by the colon
behind it, on the same line and not too far away; until then every place where a key may start is
remembered, and the token that says so is put in front of the key afterwards.
-/

namespace Treescript.Yaml

inductive TokenForm where
  | streamEnd
  | documentStart | documentEnd
  | blockSequence | blockMapping | blockEnd
  | flowSequence | flowSequenceEnd | flowMapping | flowMappingEnd
  | dash | comma | key | colon
  /-- A tag in its short form; none if its handle is unknown. -/
  | tag (short : Option String)
  | scalar (isQuoted : Bool) (text : String)
  deriving DecidableEq

/-- A token and the line it starts on. -/
structure Token where
  form : TokenForm
  line : Nat

/-- A place where a key may have started. -/
structure PossibleKey where
  /-- Which token of the text starts there. -/
  number : Nat
  /-- Nothing but a key can stand there. -/
  isRequired : Bool
  /-- Whether the token is held back until it is known if it starts a key. -/
  isAwaited : Bool
  place : Place

/-- The keys inside some brackets, or outside of all. -/
structure Level where
  possible : Option PossibleKey
  /-- Which token was the last one that a key could start with; at first the bracket itself. -/
  latest : Nat

/-- A text that is cut into tokens. -/
structure Tokens where
  cursor : Cursor
  /-- Tokens that have been cut and not been taken. -/
  queue : List Token
  /-- How many tokens have been taken. -/
  taken : Nat
  /-- The columns of the open block collections, the innermost first. -/
  columns : List Nat
  /-- How many brackets are open. -/
  depth : Nat
  /-- The keys inside the innermost brackets, then those further out. -/
  level : Level
  outer : List Level
  /-- Whether a key may start at the cursor. -/
  keyAllowed : Bool
  /-- The text starts with a byte order mark. Then a character of every line is passed over, until
  fewer than four are left. -/
  marked : Bool

namespace Tokens

/-- No more brackets or block collections than these can be open. -/
def maxDepth : Nat := 10000

def inFlow (s : Tokens) : Bool := s.depth != 0

/-- The column of the innermost block collection. -/
def indent (s : Tokens) : Int :=
  match s.columns with
  | [] => -1
  | column :: _ => column

def place (s : Tokens) : Place := s.cursor.place

def push (form : TokenForm) (line : Nat) (s : Tokens) : Tokens :=
  { s with queue := s.queue ++ [⟨form, line⟩] }

/-- The number of the next token that is cut. -/
def count (s : Tokens) : Nat := s.taken + s.queue.length

/-- Puts a token in front of the one with a given number, unless that has been taken. -/
def insert (number : Nat) (form : TokenForm) (line : Nat) (s : Tokens) : Tokens :=
  if number < s.taken then s.push form line
  else { s with queue := s.queue.insertIdx (number - s.taken) ⟨form, line⟩ }

/-- Cuts a token of one line. -/
def cut (form : TokenForm) (length : Nat) (s : Tokens) : Tokens :=
  { s.push form s.place.line with cursor := s.cursor.drop length }

def allowKey (allowed : Bool) (s : Tokens) : Tokens := { s with keyAllowed := allowed }

/-- No key is possible any longer. -/
def forgetKey (s : Tokens) : Tokens := { s with level := { s.level with possible := none } }

/-- A possible key is none after all; an error if nothing else can stand there. -/
def dropKey (s : Tokens) : Option Tokens :=
  if s.level.possible.any (·.isRequired) then none else some s.forgetKey

/-- Remembers that a key may start here. -/
def saveKey (s : Tokens) : Option Tokens :=
  if s.keyAllowed then do
    let s ← s.dropKey
    let isRequired := !s.inFlow && s.indent == s.place.column
    some { s with level := ⟨some ⟨s.count, isRequired, true, s.place⟩, s.count⟩ }
  else some s

/-- Whether the text has gone on too far for a possible key. -/
def isStale (s : Tokens) (key : PossibleKey) : Bool :=
  key.place.line < s.place.line || key.place.index + 1024 < s.place.index

/-- Opens a block collection at a column that is further to the right than the innermost one. -/
def openBlock (column : Nat) (add : Tokens → Tokens) (s : Tokens) : Option Tokens :=
  if s.inFlow || (column : Int) ≤ s.indent then some s
  else if s.columns.length ≥ maxDepth then none
  else some (add { s with columns := column :: s.columns })

/-- Closes the block collections that are further to the right than a column. -/
def closeBlocks (column : Int) (s : Tokens) : Tokens :=
  if s.inFlow then s
  else
    let closed := s.columns.takeWhile fun (c : Nat) => column < c
    { s with
      columns := s.columns.drop closed.length
      queue := s.queue ++ closed.map fun _ => ⟨.blockEnd, s.place.line⟩ }

def endStream (s : Tokens) : Option Tokens := do
  let p := s.place
  let place := if p.column = 0 then p else ⟨p.index, p.line + 1, 0⟩
  let s ← (closeBlocks (-1) { s with cursor := ⟨[], place⟩ }).dropKey
  some ((s.allowKey false).push .streamEnd place.line)

def documentMark (form : TokenForm) (s : Tokens) : Option Tokens := do
  let s ← (s.closeBlocks (-1)).dropKey
  some ((s.allowKey false).cut form 3)

def openFlow (form : TokenForm) (s : Tokens) : Option Tokens := do
  let s ← s.saveKey
  if s.depth ≥ maxDepth then none
  else
    let inside := { s with
      depth := s.depth + 1
      level := ⟨none, s.count⟩
      outer := s.level :: s.outer }
    some ((inside.allowKey true).cut form 1)

/-- A bracket that may start a key is not held back when no key could start inside it. -/
def closeFlow (form : TokenForm) (s : Tokens) : Option Tokens := do
  let s ← s.dropKey
  let outside :=
    match s.outer with
    | level :: outer =>
      let release (key : PossibleKey) :=
        { key with isAwaited := key.isAwaited && key.number != s.level.latest }
      { s with
        depth := s.depth - 1
        level := { level with possible := level.possible.map release }
        outer }
    | [] => s
  some ((outside.allowKey false).cut form 1)

def cutComma (s : Tokens) : Option Tokens := do
  let s ← s.dropKey
  some ((s.allowKey true).cut .comma 1)

/-- A dash, or a question mark in front of a key: an item of a block collection, which may have to
be opened. -/
def cutItem (collection form : TokenForm) (s : Tokens) : Option Tokens := do
  guard (s.inFlow || s.keyAllowed)
  let s ← s.openBlock s.place.column (push collection s.place.line)
  let s ← s.dropKey
  some ((s.allowKey (form == .dash || !s.inFlow)).cut form 1)

/-- A colon, behind a key that is recognised by it or behind one that has been marked as such. -/
def cutColon (s : Tokens) : Option Tokens := do
  match s.level.possible with
  | some key =>
    if s.isStale key then
      guard !key.isRequired
      afterMarkedKey s.forgetKey
    else
      let line := key.place.line
      let s := s.forgetKey.insert key.number .key line
      let s ← s.openBlock key.place.column (insert key.number .blockMapping line)
      some ((s.allowKey false).cut .colon 1)
  | none => afterMarkedKey s
where
  afterMarkedKey (s : Tokens) : Option Tokens := do
    guard (s.inFlow || s.keyAllowed)
    let s ← s.openBlock s.place.column (push .blockMapping s.place.line)
    some ((s.allowKey !s.inFlow).cut .colon 1)

def cutTag (s : Tokens) : Option Tokens := do
  let s ← s.saveKey
  let (short, length) ← tag? s.cursor.rest
  guard (atGap (s.cursor.rest.drop length))
  some ((s.allowKey false).cut (.tag short) length)

def cutQuoted (isSingle : Bool) (s : Tokens) : Option Tokens := do
  let s ← s.saveKey
  let inside := s.cursor.drop 1
  let (text, after) ←
    if isSingle then singleQuoted .empty inside.place inside.rest
    else doubleQuoted .empty inside.place .text inside.rest
  some { (s.allowKey false).push (.scalar true text) s.place.line with cursor := after }

/-- A plain scalar. A key may follow if lines have ended behind it. -/
def cutPlain (s : Tokens) : Option Tokens := do
  let s ← s.saveKey
  let (f, after) ←
    plainFrom s.inFlow (s.indent + 1).toNat .empty s.place s.cursor.rest
  let cursor := if f.isAfterLine then after else after.dropComment
  some { (s.allowKey f.isAfterLine).push (.scalar false f.trimmed) s.place.line with cursor }

/-- Moves past a comment behind the last token. -/
def dropComment (s : Tokens) : Tokens := { s with cursor := s.cursor.dropComment }

/-- Cuts the token that starts at the cursor. -/
def cutHere (s : Tokens) : Option Tokens :=
  match s.cursor.rest with
  | [] => s.endStream
  | c :: rest =>
    if atMarker s.place (c :: rest) then
      s.documentMark (if c == '-' then .documentStart else .documentEnd)
    else if c == '-' && atGap rest then s.cutItem .blockSequence .dash
    else if startsPlain s.inFlow (c :: rest) then s.cutPlain
    else
      dropComment <$>
        match c with
        | '[' => s.openFlow .flowSequence
        | '\x7b' => s.openFlow .flowMapping
        | ']' => s.closeFlow .flowSequenceEnd
        | '\x7d' => s.closeFlow .flowMappingEnd
        | ',' => s.cutComma
        | '?' => s.cutItem .blockMapping .key
        | ':' => s.cutColon
        | '!' => s.cutTag
        | '\'' => s.cutQuoted true
        | '"' => s.cutQuoted false
        | _ => none

/-- Cuts one more token, and the ends of the block collections in front of it. -/
def more (s : Tokens) : Option Tokens :=
  let (cursor, keyAllowed) :=
    seek s.inFlow s.marked s.keyAllowed s.place .blanks s.cursor.rest
  let marked := s.marked && 4 ≤ (cursor.rest.take 4).length
  (closeBlocks cursor.place.column { s with cursor, keyAllowed, marked }).cutHere

/-- The possible key that starts with a given token and is waited for, from the innermost level on.
Keys outside of a level start no later than the last one inside. -/
def awaitedKey (number : Nat) : List Level → Option PossibleKey
  | [] => none
  | level :: outer =>
    match level.possible.filter fun key => key.isAwaited && key.number == number with
    | some key => some key
    | none => if level.latest < number then none else awaitedKey number outer

/-- The possible key that the first token of the queue may turn out to start. -/
def firstKey (s : Tokens) : Option PossibleKey := awaitedKey s.taken (s.level :: s.outer)

/-- Whether the first token may be taken: two more have been cut, and it does not start a key. -/
def isReady (s : Tokens) : Bool :=
  match s.queue with
  | _ :: _ :: _ :: _ => s.firstKey.all s.isStale
  | _ => false

/-- Cuts tokens until the first one may be taken. -/
def ready : Nat → Tokens → Option Tokens
  | 0, _ => none
  | fuel + 1, s =>
    if s.isReady then if s.firstKey.any (·.isRequired) then none else some s
    else s.more.bind (ready fuel)

/-- The tokens of a text. -/
def ofText (cs : List Char) : Tokens :=
  { cursor := ⟨cs, .start⟩
    queue := []
    taken := 0
    columns := []
    depth := 0
    level := ⟨none, 0⟩
    outer := []
    keyAllowed := true
    marked := cs.head? == some '\uFEFF' }

end Tokens

end Treescript.Yaml
