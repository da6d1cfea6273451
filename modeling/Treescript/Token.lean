import Treescript.Literal

/-!
# Tokens

A token is a word of a program with the row it stands on. Its kind says what the word is for: a
keyword, an operator, a mark of punctuation, a name or a constant. Operators have one spelling as
a kind and sometimes several as words: `and` and `&&` are the same operator.
-/

namespace Treescript

/-- The reserved words. -/
inductive Keyword where
  | define | operation | object | enum | form | when | or | otherwise | while
  | log | return | self | true | false | none
  deriving DecidableEq, Repr

namespace Keyword

def all : List Keyword :=
  [define, operation, object, enum, form, .when, .or, otherwise, .while,
    log, .return, self, .true, .false, none]

def spelling : Keyword → String
  | define => "def"
  | operation => "op"
  | object => "obj"
  | enum => "enum"
  | form => "form"
  | .when => "when"
  | .or => "or"
  | otherwise => "else"
  | .while => "while"
  | log => "log"
  | .return => "return"
  | self => "self"
  | .true => "true"
  | .false => "false"
  | none => "none"

/-- The keyword that a word is, if it is reserved. -/
def ofWord? (word : String) : Option Keyword :=
  all.find? (·.spelling == word)

end Keyword

/-- Whether a word is reserved. -/
def isReserved (word : String) : Bool :=
  (Keyword.ofWord? word).isSome

/-- The operators of expressions. -/
inductive Operator where
  | minus | plus | times | divide
  | equal | notEqual | greater | less | greaterEqual | lessEqual
  | increment | decrement | and | or | not
  deriving DecidableEq, Repr

namespace Operator

def all : List Operator :=
  [minus, plus, times, divide, equal, notEqual, greater, less, greaterEqual, lessEqual,
    increment, decrement, .and, .or, .not]

def spelling : Operator → String
  | minus => "-"
  | plus => "+"
  | times => "*"
  | divide => "/"
  | equal => "=="
  | notEqual => "!="
  | greater => ">"
  | less => "<"
  | greaterEqual => ">="
  | lessEqual => "<="
  | increment => "++"
  | decrement => "--"
  | .and => "&&"
  | .or => "||"
  | .not => "!"

/-- The operators between two operands that are both evaluated. -/
def binary? : String → Option Operator
  | "==" => some equal
  | "!=" => some notEqual
  | ">" => some greater
  | ">=" => some greaterEqual
  | "<" => some less
  | "<=" => some lessEqual
  | "*" => some times
  | "/" => some divide
  | "+" => some plus
  | "-" => some minus
  | _ => none

/-- The operators in front of one operand. -/
def unary? : String → Option Operator
  | "!" => some .not
  | "-" => some minus
  | _ => none

/-- The operators whose right operand is evaluated only when the left one leaves the answer open. -/
def logical? : String → Option Operator
  | "&&" => some .and
  | "and" => some .and
  | "||" => some .or
  | "or" => some .or
  | _ => none

/-- The operators that count a variable up or down. -/
def count? : String → Option Operator
  | "++" => some increment
  | "--" => some decrement
  | _ => none

end Operator

/-- Punctuation. -/
inductive Mark where
  | parent | global | open | close | comma | dot | bodyStart | bodyEnd | assign
  deriving DecidableEq, Repr

namespace Mark

def all : List Mark :=
  [parent, global, .open, close, comma, dot, bodyStart, bodyEnd, assign]

def spelling : Mark → String
  | parent => "^"
  | global => "$"
  | .open => "("
  | close => ")"
  | comma => ","
  | dot => "."
  | bodyStart => "|"
  | bodyEnd => "~"
  | assign => "="

end Mark

/-- What a token is for. A tree built by hand may use kinds of its own. -/
inductive TokenKind where
  | keyword (k : Keyword)
  | operator (o : Operator)
  | mark (m : Mark)
  | identifier
  | text
  | int
  | float
  | endOfFile
  | other (spelling : String)
  deriving DecidableEq, Repr

namespace TokenKind

def spelling : TokenKind → String
  | keyword k => k.spelling
  | operator o => o.spelling
  | mark m => m.spelling
  | identifier => "identifier"
  | text => "string"
  | int => "int"
  | float => "float"
  | endOfFile => "end of file"
  | other s => s

/-- The kinds with a meaning of their own. -/
def named : List TokenKind :=
  Keyword.all.map keyword ++ Operator.all.map operator ++ Mark.all.map mark ++
    [identifier, text, int, float, endOfFile]

/-- The kind with a given spelling. -/
def ofSpelling (s : String) : TokenKind :=
  (named.find? (·.spelling == s)).getD (other s)

end TokenKind

structure Token where
  kind : TokenKind
  text : String
  row : Int
  /-- The value of a constant, and of a name that was written as an integer. -/
  literal : Literal := .null

namespace Token

/-- The token of a node that has none: no kind, no text, row zero. -/
def blank : Token := ⟨.other "", "", 0, .null⟩

/-- Whether a token tells nothing about a place: errors at such a token are located by the call
that raised them. -/
def isBlank (t : Token) : Bool := t.text == "" && t.row == 0

end Token

end Treescript
