import Treescript.Diagnostic
import Treescript.Eval
import Treescript.Resolution

/-!
# Sessions

A session is a machine that lives through several programs: what one of them leaves in the global
scope is there for the next. Programs that go wrong end early, and the session goes on.
-/

namespace Treescript

/-- How a run of a program ends. -/
inductive Ending where
  | finished
  | aborted (a : Abort)
  | outOfFuel
  | fault

/-- Runs the statements of a program at top level. A return there has no effect. -/
def Program.run (fuel : Nat) : Program → Run Unit
  | [] => return ()
  | s :: rest => do
    let _ ← s.exec fuel
    Program.run fuel rest

/-- A failure as the end of a run, with the arguments as they are displayed. -/
def Failure.abort (store : Store) (f : Failure) : Abort :=
  ⟨f.token, f.cause.message, f.args.map (·.map store.display)⟩

/-- Runs a program on a machine. The first failure ends the run and is logged; what the statements
before it did stays. -/
def Machine.interpret (fuel : Nat) (p : Program) (m : Machine) : Ending × Machine :=
  match (Program.run fuel p).run m with
  | (.ok (), m) => (.finished, m)
  | (.error (.failure f), m) =>
    let record : Record := ⟨.warn, "run aborted",
      [("line", .int (Int64.ofInt f.token.row)), ("error", .text f.cause.message)]⟩
    (.aborted (f.abort m.store),
      { m with current := m.globals, events := m.events.push (.logged record) })
  | (.error .outOfFuel, m) => (.outOfFuel, m)
  | (.error .fault, m) => (.fault, m)

/-- A machine with a global scope that holds the given entries besides the core natives. -/
def Machine.start (clock : Clock) (entries : List (String × Value)) : Machine :=
  let (scopes, globals) := Scopes.empty.pushRoot
  { store := { Store.empty with scopes := scopes.defineAll globals (Module.core ++ entries) }
    globals
    current := globals
    clock
    events := #[] }

structure Session where
  machine : Machine

namespace Session

/-- More steps than any run takes that is worth waiting for. -/
def fuel : Nat := 1000000000000000

def start (clock : Clock) (entries : List (String × Value)) : Session := ⟨.start clock entries⟩

def store (s : Session) : Store := s.machine.store

/-- What happened since the events were last taken. -/
def takeEvents (s : Session) : Array Event × Session :=
  (s.machine.events, ⟨{ s.machine with events := #[] }⟩)

def run {α : Type} (s : Session) (r : Run α) : Except Stop α × Session :=
  let (result, machine) := r.run s.machine
  (result, ⟨machine⟩)

/-- Runs a program whose names have been resolved. -/
def interpret (s : Session) (p : Program) : Ending × Session :=
  let (ending, machine) := s.machine.interpret fuel p
  (ending, ⟨machine⟩)

/-- Evaluates an expression at top level. -/
def evaluate (s : Session) (e : Expr) : Except Stop Value × Session := s.run (e.eval fuel)

/-- The value of a global name. -/
def global? (s : Session) (name : String) : Option Value :=
  s.store.scopes.get? s.machine.globals name

/-- Binds a global name. -/
def defineGlobal (s : Session) (name : String) (value : Value) : Session :=
  ⟨{ s.machine with store := s.store.define s.machine.globals name value }⟩

/-- Runs statements in a new scope below the globals that holds the given bindings, and hands back
the bindings as they are afterwards. -/
def runBlock (s : Session) (body : Program) (bindings : List (String × Value)) :
    Except Stop Completion × List (String × Option Value) × Session :=
  let (scopes, scope) := s.store.scopes.enter s.machine.globals
  let scopes := scopes.defineAll scope bindings
  let m := { s.machine with store := { s.store with scopes } }
  let (result, m) := (Run.within scope (Stmt.execList fuel body)).run m
  (result, bindings.map fun b => (b.1, m.store.scopes.get? scope b.1), ⟨m⟩)

/-- Why a call from outside is not made. -/
inductive Refusal where
  | notObjectType
  | noMethod
  | notCallable
  | arity (expected : Nat)

/-- The method of a global object type, bound to a value if one is given. -/
def method (s : Session) (type key : String) (receiver : Option Value) :
    Except Refusal (Value × Session) :=
  match s.global? type with
  | some (.type (.object t)) =>
    match (s.store.objects[t]?.bind (·.methods.get? key)).bind fun id =>
        s.store.closures[id]?.map fun c => (id, c) with
    | none => .error .noMethod
    | some (id, closure) =>
      match receiver with
      | none => .ok (.operation id, s)
      | some value =>
        let (store, bound) := s.store.bindSelf closure value
        .ok (.operation bound, ⟨{ s.machine with store }⟩)
  | _ => .error .notObjectType

/-- Calls a value from outside any program, if it takes that many arguments. -/
def call (s : Session) (callee : Option Value) (args : List Value) :
    Except Refusal (Except Stop Value × Session) :=
  match callee.bind fun v => (s.store.arity? v).map fun arity => (v, arity) with
  | none => .error .notCallable
  | some (v, arity) =>
    if args.length ≠ arity then .error (.arity arity) else .ok (s.run (v.call fuel args))

/-- Writes a property of a global holder if a value is given, then reads it; none when the global
has no properties. -/
def property (s : Session) (name : String) (key : Token) (value : Option Value) :
    Option (Value × Except Stop Value × Session) :=
  match s.global? name with
  | some holder@(.holder of id) =>
    let (result, s) := s.run do
      if let some v := value then Run.setProperty id key v
      Run.getProperty of id key
    some (holder, result, s)
  | _ => none

end Session

end Treescript
