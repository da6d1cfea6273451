import Treescript.Store
import Treescript.Text.Blank
import Treescript.Text.LetterCase

/-!
# Natives

What the operations that come with the language compute, and the modules they come in. The core
module is always there; the others are registered on request.
-/

namespace Treescript

namespace Native

/-- Applies a function of numbers. -/
def onNumber (n : Native) (f : Float → Float) : Signal → Except Cause Value
  | .value v =>
    match v.number? with
    | some x => .ok (.float (f x))
    | none => .error (.nativeNumber n.name v.kind)
  | s => .error (.nativeNumber n.name s.kind)

/-- Applies a function of texts. -/
def onText (n : Native) (f : String → Value) : Signal → Except Cause Value
  | .value (.text s) => .ok (f s)
  | s => .error (.nativeText n.name s.kind)

/-- The result of a native at a moment of time, none when it lacks its argument. -/
def apply (store : Store) (now : Float) (n : Native) (args : List Signal) :
    Option (Except Cause Value) :=
  match n, args with
  | clock, _ => some (.ok (.float now))
  | abs, a :: _ => some (onNumber abs Float.abs a)
  | ceil, a :: _ => some (onNumber ceil Float.ceil a)
  | floor, a :: _ => some (onNumber floor Float.floor a)
  | round, a :: _ => some (onNumber round Float.round a)
  | sqrt, a :: _ => some (onNumber sqrt Float.sqrt a)
  | upper, a :: _ => some (onText upper (fun s => .text (Text.upper s)) a)
  | lower, a :: _ => some (onText lower (fun s => .text (Text.lower s)) a)
  | trim, a :: _ => some (onText trim (fun s => .text (Text.trim s)) a)
  | len, a :: _ => some (onText len (fun s => .int (Int64.ofNat s.length)) a)
  | type, a :: _ => some (.ok (.text (Text.lower a.kind.name)))
  | str, a :: _ => some (.ok (.text (store.displaySignal a)))
  | _, [] => none

end Native

/-- The modules a session can be given. -/
inductive Module where
  | math | text | type
  deriving DecidableEq, Repr

namespace Module

/-- The modules in the order of their names. -/
def all : List Module := [math, text, type]

def name : Module → String
  | math => "math"
  | text => "string"
  | type => "type"

def ofName? (name : String) : Option Module := all.find? (·.name == name)

/-- The names of all modules, as messages list them. -/
def known : String := ", ".intercalate (all.map name)

/-- Natives under their own names. -/
def natives (ns : List Native) : List (String × Value) := ns.map fun n => (n.name, .native n)

/-- What every global scope starts with. -/
def core : List (String × Value) := natives [.clock]

def entries : Module → List (String × Value)
  | math =>
    [("pi", .float 3.141592653589793), ("e", .float 2.718281828459045)] ++
      natives [.abs, .ceil, .floor, .round, .sqrt]
  | text => natives [.upper, .lower, .trim, .len]
  | type => natives [.type, .str]

/-- The native that a module has under a name. -/
def native? (m : Module) (name : String) : Option Native :=
  match m.entries.lookup name with
  | some (.native n) => some n
  | _ => none

/-- The entries of all the named modules, or the first name that is not a module's. -/
def load : List String → Except String (List (String × Value))
  | [] => .ok []
  | name :: rest =>
    match ofName? name with
    | none => .error name
    | some m => do return m.entries ++ (← load rest)

/-- What is said about a name that is not a module's. -/
def unknownMessage (name : String) : String :=
  "stdlib: unknown module " ++ Text.quote name ++ " (known: " ++ known ++ ")"

end Module

end Treescript
