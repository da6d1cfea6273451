/-!
# Places in a YAML text

A line feed, the next-line character and the Unicode line and paragraph separators end a line.
Lines count from one, columns and characters from zero.
-/

namespace Treescript.Yaml

def isBreak (c : Char) : Bool :=
  c == '\n' || c == '\u0085' || c == '\u2028' || c == '\u2029'

def isBlank (c : Char) : Bool := c == ' ' || c == '\t'

/-- Whether a blank, a line end or the end of the text is next. -/
def atGap : List Char → Bool
  | [] => true
  | c :: _ => isBlank c || isBreak c

structure Place where
  index : Nat
  line : Nat
  column : Nat

namespace Place

def start : Place := ⟨0, 1, 0⟩

/-- The place behind a character on the same line. -/
def right (p : Place) : Place := ⟨p.index + 1, p.line, p.column + 1⟩

/-- The place behind a character, on the next line if it ends one. -/
def after (p : Place) (c : Char) : Place :=
  if isBreak c then ⟨p.index + 1, p.line + 1, 0⟩ else p.right

/-- The place behind several characters of one line. -/
def plus (p : Place) (n : Nat) : Place := ⟨p.index + n, p.line, p.column + n⟩

end Place

/-- What is left of a text, and where it starts. -/
structure Cursor where
  rest : List Char
  place : Place

namespace Cursor

/-- Moves past characters of one line. -/
def drop (cur : Cursor) (n : Nat) : Cursor := ⟨cur.rest.drop n, cur.place.plus n⟩

/-- Moves past a comment that follows on the same line. -/
def dropComment (cur : Cursor) : Cursor :=
  let blanks := cur.rest.takeWhile isBlank
  match cur.rest.drop blanks.length with
  | '#' :: rest =>
    let comment := rest.takeWhile (!isBreak ·)
    cur.drop (blanks.length + 1 + comment.length)
  | _ => cur

end Cursor

/-- Whether a mark that opens or closes a document is next, at the start of a line. -/
def atMarker (p : Place) (cs : List Char) : Bool :=
  p.column == 0 &&
    match cs with
    | '-' :: '-' :: '-' :: rest => atGap rest
    | '.' :: '.' :: '.' :: rest => atGap rest
    | _ => false

/-- What `seek` is passing over. -/
inductive Passing where
  | blanks
  | comment
  /-- Blanks and line ends between two comments. -/
  | remarks

/-- Moves past blanks, line ends and comments, and tells whether a key may start there. Tabs are
blanks in brackets, where no key may start, and between two comments. In a block a key may start on
every new line. When `marked`, the first character of a line is passed over whatever it is. -/
def seek (inFlow marked keyAllowed : Bool) (p : Place) : Passing → List Char → Cursor × Bool
  | _, [] => (⟨[], p⟩, keyAllowed)
  | .blanks, c :: rest =>
    if marked && p.column == 0 then seek inFlow marked keyAllowed p.right .blanks rest
    else if c == ' ' || (c == '\t' && (inFlow || !keyAllowed)) then
      seek inFlow marked keyAllowed p.right .blanks rest
    else if c == '#' then seek inFlow marked keyAllowed p.right .comment rest
    else if isBreak c then seek inFlow marked (keyAllowed || !inFlow) (p.after c) .blanks rest
    else (⟨c :: rest, p⟩, keyAllowed)
  | .comment, c :: rest =>
    if isBreak c then
      let next := rest.dropWhile fun d => isBlank d || d == '\n'
      let passing := if c == '\n' && next.head? == some '#' then .remarks else .blanks
      seek inFlow marked (keyAllowed || !inFlow) (p.after c) passing rest
    else seek inFlow marked keyAllowed p.right .comment rest
  | .remarks, c :: rest =>
    seek inFlow marked keyAllowed (p.after c) (if c == '#' then .comment else .remarks) rest

end Treescript.Yaml
