import Treescript.Decimal.Notation
import Treescript.Text.Quoted

/-!
# Literals

The constants that tokens and literal nodes carry. Besides the five kinds the language has, a tree
built by hand may carry a `word`, which counts as an integer, and a `natural`, which the language
can only show as text.
-/

namespace Treescript

inductive Literal where
  | null
  | bool (b : Bool)
  | int (n : Int64)
  | float (x : Float)
  | text (s : String)
  /-- An integer of machine width, taken as an `int` wherever one is wanted. -/
  | word (n : Int64)
  /-- An unsigned integer, a kind the language lacks. -/
  | natural (n : UInt64)

namespace Literal

/-- A number or truth value as it is written in a tree; `null` and texts as they are. -/
def plain : Literal → String
  | null => "<nil>"
  | bool true => "true"
  | bool false => "false"
  | int n => toString n.toInt
  | float x => Decimal.text .compact x
  | text s => s
  | word n => toString n.toInt
  | natural n => toString n.toNat

/-- The literal in a printed tree: texts are quoted and `null` is `none`. -/
def printed : Literal → String
  | null => "none"
  | text s => Text.quote s
  | l => l.plain

/-- Several literals on one line between brackets. -/
def plainList (items : List Literal) : String :=
  "[" ++ " ".intercalate (items.map plain) ++ "]"

/-- The integer that an integer literal stands for. -/
def integer? : Literal → Option Int64
  | int n => some n
  | word n => some n
  | _ => none

end Literal

end Treescript
