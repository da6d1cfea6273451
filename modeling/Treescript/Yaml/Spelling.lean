import Treescript.Yaml.Cursor

/-!
# Scalars and tags as they are written

Single-quoted, double-quoted and plain scalars, which may go on over several lines, and tags. A
line end between two words of a scalar reads as a space, several as one less than there are; a line
or paragraph separator is kept.
-/

namespace Treescript.Yaml

/-- What is held back between two pieces of a scalar. -/
inductive Gap where
  /-- Blanks on a line, the last one first. -/
  | blanks (reversed : List Char)
  /-- A line end, none when it is escaped, and those behind it, the last one first. -/
  | lines (first : Option Char) (more : List Char)

/-- What a gap reads as when the scalar goes on, the last character first. -/
def Gap.reversed : Gap → List Char
  | blanks cs => cs
  | lines none more => more
  | lines (some c) more =>
    if c ≠ '\n' then more ++ [c] else if more.isEmpty then [' '] else more

/-- A scalar in the making. -/
structure Folded where
  /-- The pieces so far, the last character first. -/
  reversed : List Char
  gap : Gap

namespace Folded

def empty : Folded := ⟨[], .blanks []⟩

/-- The scalar so far with the gap behind it. -/
def flush (f : Folded) : List Char := f.gap.reversed ++ f.reversed

/-- Goes on with a character as it is. -/
def char (f : Folded) (c : Char) : Folded := ⟨c :: f.flush, .blanks []⟩

/-- Goes on behind an escaped line end. -/
def join (f : Folded) : Folded := ⟨f.flush, .lines none []⟩

/-- Goes on with a character of the text: blanks at the ends of a line do not count. -/
def add (f : Folded) (c : Char) : Folded :=
  if isBreak c then
    let c := if c == '\u0085' then '\n' else c
    match f.gap with
    | .blanks _ => ⟨f.reversed, .lines (some c) []⟩
    | .lines first more => ⟨f.reversed, .lines first (c :: more)⟩
  else if isBlank c then
    match f.gap with
    | .blanks cs => ⟨f.reversed, .blanks (c :: cs)⟩
    | .lines _ _ => f
  else f.char c

def isAfterLine (f : Folded) : Bool :=
  match f.gap with
  | .blanks _ => false
  | .lines _ _ => true

def isAfterGap (f : Folded) : Bool :=
  match f.gap with
  | .blanks cs => !cs.isEmpty
  | .lines _ _ => true

/-- The scalar without a gap at its end. -/
def trimmed (f : Folded) : String := String.ofList f.reversed.reverse

/-- The scalar with a gap at its end. -/
def whole (f : Folded) : String := String.ofList f.flush.reverse

end Folded

/-- The rest of a single-quoted scalar. -/
def singleQuoted (f : Folded) (p : Place) : List Char → Option (String × Cursor)
  | [] => none
  | '\'' :: '\'' :: rest => singleQuoted (f.char '\'') p.right.right rest
  | '\'' :: rest => some (f.whole, ⟨rest, p.right⟩)
  | c :: rest =>
    if atMarker p (c :: rest) then none else singleQuoted (f.add c) (p.after c) rest

/-- What a single character after a backslash stands for. -/
def escaped? (c : Char) : Option Char :=
  match c with
  | '0' => some (Char.ofNat 0)
  | 'a' => some (Char.ofNat 7)
  | 'b' => some (Char.ofNat 8)
  | 't' => some '\t'
  | '\t' => some '\t'
  | 'n' => some '\n'
  | 'v' => some (Char.ofNat 0x0B)
  | 'f' => some (Char.ofNat 0x0C)
  | 'r' => some '\r'
  | 'e' => some (Char.ofNat 0x1B)
  | ' ' => some ' '
  | '"' => some '"'
  | '\'' => some '\''
  | '\\' => some '\\'
  | 'N' => some (Char.ofNat 0x85)
  | '_' => some (Char.ofNat 0xA0)
  | 'L' => some (Char.ofNat 0x2028)
  | 'P' => some (Char.ofNat 0x2029)
  | _ => none

/-- How many hexadecimal digits an escape takes. -/
def codeWidth? (c : Char) : Option Nat :=
  match c with
  | 'x' => some 2
  | 'u' => some 4
  | 'U' => some 8
  | _ => none

def hexDigit? (c : Char) : Option Nat :=
  if c.isDigit then some (c.toNat - '0'.toNat)
  else if 'a' ≤ c ∧ c ≤ 'f' then some (c.toNat - 'a'.toNat + 10)
  else if 'A' ≤ c ∧ c ≤ 'F' then some (c.toNat - 'A'.toNat + 10)
  else none

/-- The character with a code point, unless it is none. -/
def charOf? (n : Nat) : Option Char := if n.isValidChar then some (Char.ofNat n) else none

/-- Where the reading of a double-quoted scalar is. -/
inductive Quote where
  | text
  /-- After a backslash. -/
  | escape
  /-- In the digits of a character code, so many of them to come. -/
  | code (digits value : Nat)

/-- The rest of a double-quoted scalar. -/
def doubleQuoted (f : Folded) (p : Place) : Quote → List Char → Option (String × Cursor)
  | _, [] => none
  | .escape, c :: rest =>
    if isBreak c then doubleQuoted f.join (p.after c) .text rest
    else
      match codeWidth? c with
      | some width => doubleQuoted f p.right (.code width 0) rest
      | none => (escaped? c).bind fun d => doubleQuoted (f.char d) p.right .text rest
  | .code digits value, c :: rest =>
    (hexDigit? c).bind fun d =>
      let value := 16 * value + d
      if digits ≤ 1 then
        (charOf? value).bind fun c => doubleQuoted (f.char c) p.right .text rest
      else doubleQuoted f p.right (.code (digits - 1) value) rest
  | .text, c :: rest =>
    if atMarker p (c :: rest) then none
    else if c == '"' then some (f.whole, ⟨rest, p.right⟩)
    else if c == '\\' then doubleQuoted f p.right .escape rest
    else doubleQuoted (f.add c) (p.after c) .text rest

/-- Characters that end a plain scalar inside brackets. -/
def isFlowMark (c : Char) : Bool :=
  c == ',' || c == '?' || c == '[' || c == ']' || c == '\x7b' || c == '\x7d'

/-- The rest of a plain scalar, to the next thing that is not blank. Outside brackets its lines
stand at `indent` or further to the right; a tab does not count as indentation. -/
def plainFrom (inFlow : Bool) (indent : Nat) (f : Folded) (p : Place) :
    List Char → Option (Folded × Cursor)
  | [] => some (f, ⟨[], p⟩)
  | c :: rest =>
    let stays := some (f, ⟨c :: rest, p⟩)
    if isBreak c then plainFrom inFlow indent (f.add c) (p.after c) rest
    else if isBlank c then
      if c == '\t' && f.isAfterLine && p.column < indent then none
      else plainFrom inFlow indent (f.add c) p.right rest
    else if f.isAfterGap &&
        ((!inFlow && p.column < indent) || atMarker p (c :: rest) || c == '#') then stays
    else if (c == ':' && atGap rest) || (inFlow && isFlowMark c) then stays
    else plainFrom inFlow indent (f.add c) p.right rest

/-- Characters with a meaning of their own at the start of a token. -/
def isIndicator (c : Char) : Bool :=
  isFlowMark c || c == '-' || c == ':' || c == '#' || c == '&' || c == '*' || c == '!' ||
    c == '|' || c == '>' || c == '\'' || c == '"' || c == '%' || c == '@' || c == '\x60'

/-- Whether a plain scalar starts here. -/
def startsPlain (inFlow : Bool) : List Char → Bool
  | [] => false
  | c :: rest =>
    !(isIndicator c || isBlank c || isBreak c) || (c == '-' && !atGap rest) ||
      (!inFlow && (c == '?' || c == ':') && !atGap rest)

/-- Letters, digits, `_` and `-`. -/
def isWordChar (c : Char) : Bool := c.isAlphanum || c == '_' || c == '-'

/-- What the suffix of a tag is made of. -/
def isTagChar (c : Char) : Bool :=
  isWordChar c || [';', '/', '?', ':', '@', '&', '=', '+', '$', ',', '.', '!', '~', '*', '\'',
    '(', ')', '[', ']'].contains c

/-- The suffix of a tag with its escapes read, and how many characters it takes. -/
def tagSuffix : List Char → Option (List Char × Nat)
  | '%' :: a :: b :: rest => do
    let high ← hexDigit? a
    let low ← hexDigit? b
    let (suffix, length) ← tagSuffix rest
    some (Char.ofNat (16 * high + low) :: suffix, length + 3)
  | c :: rest =>
    if c == '%' then none
    else if isTagChar c then do
      let (suffix, length) ← tagSuffix rest
      some (c :: suffix, length + 1)
    else some ([], 0)
  | [] => some ([], 0)

/-- The tags that `!!` leads to. -/
def tagSpace : String := "tag:yaml.org,2002:"

/-- A tag in its short form. -/
def shortTag (tag : String) : String :=
  if tag.startsWith tagSpace then "!!" ++ String.ofList (tag.toList.drop tagSpace.length) else tag

/-- A tag: in angle brackets, behind a handle between exclamation marks, or behind a single
exclamation mark. Its short form, none if its handle is unknown, and how many characters it
takes. -/
def tag? : List Char → Option (Option String × Nat)
  | '!' :: '<' :: rest => do
    let (suffix, length) ← tagSuffix rest
    guard (length ≠ 0 ∧ (rest.drop length).head? = some '>')
    some (some (shortTag (String.ofList suffix)), length + 3)
  | '!' :: rest => do
    let handle := rest.takeWhile isWordChar
    match rest.drop handle.length with
    | '!' :: behind =>
      let (suffix, length) ← tagSuffix behind
      guard (length ≠ 0)
      let tag := if handle.isEmpty then some ("!!" ++ String.ofList suffix) else none
      some (tag, handle.length + 2 + length)
    | _ => do
      let (suffix, length) ← tagSuffix rest
      some (some ("!" ++ String.ofList suffix), length + 1)
  | _ => none

end Treescript.Yaml
