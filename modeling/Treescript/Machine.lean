import Treescript.Log
import Treescript.Native

/-!
# The machine

The state of a running session, and the steps a run is made of. A run ends with a result, with a
failure of the program, without fuel, or with a fault: a hole in the tree or a reference that
leads nowhere, neither of which a decoded program can bring about.
-/

namespace Treescript

/-- Readings of the time, one for every time the clock is looked at. -/
structure Clock where
  reading : Nat → Float
  taken : Nat

/-- What a run does to the outside, in order. -/
inductive Event where
  | printed (line : String)
  | logged (record : Record)

structure Machine where
  store : Store
  globals : ScopeId
  /-- The scope that names are looked up from. -/
  current : ScopeId
  clock : Clock
  events : Array Event

/-- Why a run ends without a result. -/
inductive Stop where
  | failure (f : Failure)
  | outOfFuel
  | fault

abbrev Run := ExceptT Stop (StateM Machine)

/-- How a statement ends when it does not stop the run. -/
inductive Completion where
  | normal
  | returned (v : Value)

namespace Run

def fail {α : Type} (token : Token) (cause : Cause) : Run α :=
  throw (.failure ⟨token, cause, none⟩)

/-- Refuses a call whose arguments have been evaluated. -/
def refuse {α : Type} (token : Token) (cause : Cause) (args : List Value) : Run α :=
  throw (.failure ⟨token, cause, some args⟩)

/-- The content of a reference, which is a fault to be without. -/
def found {α : Type} : Option α → Run α
  | some a => pure a
  | none => throw .fault

/-- Changes the store and takes a result from the change. -/
def onStore {α : Type} (f : Store → Store × α) : Run α :=
  modifyGet fun m =>
    let (store, a) := f m.store
    (a, { m with store })

def store : Run Store := return (← get).store

def emit (e : Event) : Run Unit := modify fun m => { m with events := m.events.push e }

def print (line : String) : Run Unit := emit (.printed line)

def log (level : Level) (message : String) (attrs : List (String × Literal)) : Run Unit :=
  emit (.logged ⟨level, message, attrs⟩)

/-- Runs in another scope and comes back to the present one, however the run ends. -/
def within {α : Type} (scope : ScopeId) (run : Run α) : Run α :=
  ExceptT.mk fun m =>
    let (result, m') := run.run { m with current := scope }
    (result, { m' with current := m.current })

/-- Gives a place to failures that have none. -/
def locating {α : Type} (token : Token) (run : Run α) : Run α :=
  tryCatch run fun
    | .failure f => throw (.failure (f.locatedAt token))
    | stop => throw stop

/-- Binds a name in the current scope. -/
def define (name : String) (value : Value) : Run Unit :=
  modify fun m => { m with store := m.store.define m.current name value }

/-- Reads a variable: at its number of hops, or from the globals. -/
def lookup (token : Token) (name : String) (hops : Option Nat) : Run Value := do
  let m ← get
  let value? :=
    match hops with
    | some n => m.store.scopes.getAt? n m.current name
    | none => m.store.scopes.get? m.globals name
  match value? with
  | some value => return value
  | none => fail token (.undefinedVariable name)

/-- Writes a variable that is there: at its number of hops, or in the globals. -/
def assign (name : Token) (hops : Option Nat) (value : Value) : Run Value := do
  let m ← get
  let binder? :=
    match hops with
    | some n => m.store.scopes.binderAt? n m.current name.text
    | none => m.store.scopes.binderAt? 0 m.globals name.text
  match binder? with
  | some scope =>
    modify fun m => { m with store := m.store.define scope name.text value }
    return value
  | none => fail name (.undefinedVariable name.text)

/-- The time, which passes with every look. -/
def now : Run Float :=
  modifyGet fun m =>
    (m.clock.reading m.clock.taken, { m with clock := { m.clock with taken := m.clock.taken + 1 } })

end Run

end Treescript
