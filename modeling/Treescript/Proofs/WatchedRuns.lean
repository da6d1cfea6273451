import Treescript.Proofs.Places
import Treescript.Session

/-!
# Watched runs

A run that keeps a record beside the machine: for every scope the local scopes of the text that it
is the innermost of, for every operation the place it was declared at, and for every node that is
evaluated the place of the node and the state it is evaluated in. A label is given when the scope or
the operation is made, and only the text around the statement that makes it decides the label.

A watched session runs several programs one after the other, each with its names resolved.
-/

namespace Treescript

/-- The place of an operation's declaration, and whether the operation is ready to be called. A
method is not: `self` has to be bound first. -/
structure Origin where
  place : Place
  callable : Bool

structure Labelled where
  machine : Machine
  regions : ScopeId → List Region
  origins : Nat → Origin

namespace Labelled

def labelScope (s : Labelled) (scope : ScopeId) (regions : List Region) : Labelled :=
  { s with regions := fun i => if i = scope then regions else s.regions i }

def labelOperation (s : Labelled) (id : Nat) (origin : Origin) : Labelled :=
  { s with origins := fun i => if i = id then origin else s.origins i }

def labelMethods (s : Labelled) (P : Place) (first : Nat) : List Operation → Labelled
  | [] => s
  | _ :: rest =>
    (s.labelOperation first ⟨P.child 0, false⟩).labelMethods (P.child 1) (first + 1) rest

end Labelled

inductive Sight where
  /-- A node whose evaluation begins. -/
  | node (n : Node)
  /-- A reference about to read its variable, or to write the value to it. -/
  | access (e : Expr) (written : Value)

structure Moment where
  sight : Sight
  place : Place
  state : Labelled

structure Observed where
  state : Labelled
  /-- What has been seen, the latest first. -/
  past : List Moment

def Observed.moveTo (o : Observed) (scope : ScopeId) : Observed :=
  { o with state := { o.state with machine := { o.state.machine with current := scope } } }

abbrev Watch := ExceptT Stop (StateM Observed)

namespace Watch

def lift {α : Type} (run : Run α) : Watch α :=
  ExceptT.mk fun o =>
    let (result, machine) := run.run o.state.machine
    (result, { o with state := { o.state with machine } })

/-- Adds to the record without touching the machine. -/
def label (f : Labelled → Labelled) : Watch Unit := modify fun o => { o with state := f o.state }

def note (sight : Sight) (P : Place) : Watch Unit :=
  modify fun o => { o with past := ⟨sight, P, o.state⟩ :: o.past }

def state : Watch Labelled := return (← get).state

def within {α : Type} (scope : ScopeId) (watch : Watch α) : Watch α :=
  ExceptT.mk fun o =>
    let (result, o') := watch.run (o.moveTo scope)
    (result, o'.moveTo o.state.machine.current)

def locating {α : Type} (token : Token) (watch : Watch α) : Watch α :=
  tryCatch watch fun
    | .failure f => throw (.failure (f.locatedAt token))
    | stop => throw stop

end Watch

/-- What a reference does when its turn has come. -/
def Expr.access (written : Value) : Expr → Run Value
  | .variable name hops => Run.lookup name name.text hops
  | .self keyword hops => Run.lookup keyword selfName hops
  | .assign name _ hops | .count _ _ name hops => Run.assign name hops written
  | _ => return written

def Watch.access (P : Place) (e : Expr) (written : Value) : Watch Value := do
  Watch.note (.access e written) P
  Watch.lift (e.access written)

def Watch.enterScope (regions : List Region) : Watch ScopeId := do
  let current := (← Watch.lift get).current
  let scope ← Watch.lift (Run.onStore (·.enterScope current))
  Watch.label (·.labelScope scope regions)
  return scope

def Watch.enterCall (regions : List Region) (closure : Closure) (args : List Value) :
    Watch ScopeId := do
  let scope ← Watch.lift (Run.enterCall closure args)
  Watch.label (·.labelScope scope regions)
  return scope

/-- Declares an operation whose parameters and body are at the place `P`. -/
def Watch.declareOperation (P : Place) (o : Operation) : Watch Unit := do
  let scope := (← Watch.lift get).current
  let id ← Watch.lift (Run.onStore (·.addClosure ⟨o, scope, false⟩))
  Watch.label (·.labelOperation id ⟨P, true⟩)
  Watch.lift (Run.define o.name.text (.operation id))

def Watch.bindSelf (P : Place) (closure : Closure) (value : Value) : Watch Nat := do
  let scope := (← Watch.state).machine.store.scopes.size
  let id ← Watch.lift (Run.onStore (·.bindSelf closure value))
  Watch.label (·.labelScope scope P.regions)
  Watch.label (·.labelOperation id ⟨P, true⟩)
  return id

/-- The method that reading a property binds to the instance. -/
def Store.methodRead? (s : Store) (of : TypeRef) (id : Nat) (name : String) : Option Nat :=
  match of, s.fields? id with
  | .object t, some fields =>
    if (fields.get? name).isSome then none
    else (s.objects[t]?.bind (·.methods.get? name)).filter fun method => method < s.closures.size
  | _, _ => none

def Watch.getProperty (of : TypeRef) (id : Nat) (name : Token) : Watch Value := do
  let s ← Watch.state
  let value ← Watch.lift (Run.getProperty of id name)
  if let some method := s.machine.store.methodRead? of id name.text then
    let P := (s.origins method).place
    Watch.label (·.labelScope s.machine.store.scopes.size P.regions)
    Watch.label (·.labelOperation s.machine.store.closures.size ⟨P, true⟩)
  return value

def Watch.declareObject (P : Place) (name : Token) (methods : List Operation) : Watch Unit := do
  let first := (← Watch.state).machine.store.closures.size
  Watch.lift (Run.declareObject name methods)
  Watch.label (·.labelMethods P first methods)

open Watch

mutual

def Expr.watch : Nat → Place → Expr → Watch Value
  | 0, _, _ => throw .outOfFuel
  | fuel + 1, P, e => do
    note (.node (.expr e)) P
    match e with
    | .hole => throw .fault
    | .literal _ value => return .ofLiteral value
    | .variable .. | .self .. => access P e .none
    | .assign _ value _ => do
      let value ← value.watch fuel P
      access P e value
    | .unary operator right => do
      let right ← right.watch fuel P
      lift (Run.operator operator (Operator.prefixed operator right))
    | .binary left operator right => do
      let left ← left.watch fuel P
      let right ← right.watch fuel P
      lift do Run.operator operator (Operator.between (← Run.store) operator left right)
    | .logical left operator right => do
      let left ← left.watch fuel P
      if left.isTruthy = (operator.kind == .operator .or) then return left
      right.watch fuel P
    | .count operator target _ _ => do
      let current ← target.watch fuel P
      let updated ← lift (Run.operator operator (Operator.counted operator current))
      access P e updated
    | .call callee paren args => do
      let callee ← callee.watch fuel P
      let args ← Expr.watchList fuel P args
      match (← lift Run.store).arity? callee with
      | none => lift (Run.refuse paren (.notCallable callee.kind) args)
      | some arity =>
        if args.length ≠ arity then lift (Run.refuse paren (.arity arity args.length) args)
        else locating paren (callee.watchCall fuel args)
    | .group _ inner => inner.watch fuel P
    | .get object name => do
      match ← object.watch fuel P with
      | .holder of id => Watch.getProperty of id name
      | target => lift (Run.fail name (.noProperties target.kind))
    | .set object name value => do
      let value ← value.watch fuel P
      match ← object.watch fuel P with
      | .holder _ id => do
        lift (Run.setProperty id name value)
        return value
      | target => lift (Run.fail name (.noFields target.kind))
    | .parent _ | .global _ => lift (e.eval 1)

def Expr.watchList : Nat → Place → List Expr → Watch (List Value)
  | 0, _, _ => throw .outOfFuel
  | _ + 1, _, [] => return []
  | fuel + 1, P, e :: es => do
    let value ← e.watch fuel P
    return value :: (← Expr.watchList fuel P es)

def Value.watchCall : Nat → Value → List Value → Watch Value
  | 0, _, _ => throw .outOfFuel
  | fuel + 1, .operation id, args => do
    let closure ← lift (Run.found (← lift Run.store).closures[id]?)
    Closure.watch fuel ((← Watch.state).origins id).place closure args
  | _ + 1, .native n, args => lift (Value.call 1 (.native n) args)
  | fuel + 1, .type t, args => do
    let instance_ := Value.holder t (← lift (Run.onStore (·.addHolder)))
    match (← lift Run.store).pilot? t with
    | none => return instance_
    | some pilot => do
      let closure ← lift (Run.found (← lift Run.store).closures[pilot]?)
      let P := ((← Watch.state).origins pilot).place
      let bound ← Watch.bindSelf P closure instance_
      let closure ← lift (Run.found (← lift Run.store).closures[bound]?)
      let _ ← Closure.watch fuel P closure args
      return instance_
  | _ + 1, _, _ => throw .fault

def Closure.watch : Nat → Place → Closure → List Value → Watch Value
  | 0, _, _, _ => throw .outOfFuel
  | fuel + 1, P, closure, args => do
    let inside := P.operation closure.declaration
    let scope ← Watch.enterCall inside.regions closure args
    let completion ← within scope (Stmt.watchList fuel
      (inside.after (closure.declaration.params.map (·.text))) closure.declaration.body)
    let self? := (← lift Run.store).scopes.get? closure.scope selfName
    match closure.isPilot, self?, completion with
    | true, some self, _ => return self
    | _, _, .returned value => return value
    | _, _, .normal => return .none

def Stmt.watch : Nat → Place → Stmt → Watch Completion
  | 0, _, _ => throw .outOfFuel
  | fuel + 1, P, s => do
    note (.node (.stmt s)) P
    match s with
    | .hole => throw .fault
    | .expression _ value => do
      let _ ← value.watch fuel P
      return .normal
    | .print _ value => do
      let value ← value.watch fuel P
      lift (Run.print ((← lift Run.store).display value))
      return .normal
    | .define ⟨_, name, initial⟩ => do
      let value ← Expr.watchOptional fuel (P.initializer name.text) initial
      lift (Run.define name.text value)
      return .normal
    | .block _ body => do
      let inside := P.enter (Stmt.declaresList body)
      let scope ← Watch.enterScope inside.regions
      within scope (Stmt.watchList fuel inside body)
    | .operation o => do
      Watch.declareOperation (P.after [o.name.text]) o
      return .normal
    | .conditional _ condition branch arms otherwise => do
      if (← condition.watch fuel P).isTruthy then branch.watch fuel (P.child 0)
      else
        match ← Arm.watchChoose fuel ((P.after branch.declares).child 1) arms, otherwise with
        | some (chosen, Q), _ => chosen.watch fuel Q
        | none, some last =>
          last.watch fuel ((P.after (branch.declares ++ Arm.declaresList arms)).child 2)
        | none, none => return .normal
    | .arm a => lift (Run.fail a.token .strayArm)
    | .loop _ condition body => Stmt.watchRepeat fuel P condition body
    | .return _ value => return .returned (← Expr.watchOptional fuel P value)
    | .object _ name methods => do
      Watch.declareObject (P.after [name.text]).object name methods
      return .normal
    | .enum _ name elements => do
      lift (Run.declareEnum name elements)
      return .normal
    | .form _ name members => do
      lift (Run.define name.text .none)
      let members ← Definition.watchMembers fuel (P.after [name.text]) members .empty
      lift (Run.declareForm name members)
      return .normal

def Expr.watchOptional : Nat → Place → Option Expr → Watch Value
  | 0, _, _ => throw .outOfFuel
  | _ + 1, _, none => return .none
  | fuel + 1, P, some e => e.watch fuel P

def Stmt.watchList : Nat → Place → List Stmt → Watch Completion
  | 0, _, _ => throw .outOfFuel
  | _ + 1, _, [] => return .normal
  | fuel + 1, P, s :: ss => do
    match ← s.watch fuel (P.child 0) with
    | .normal => Stmt.watchList fuel ((P.after s.declares).child 1) ss
    | .returned value => return .returned value

def Arm.watchChoose : Nat → Place → List Arm → Watch (Option (Stmt × Place))
  | 0, _, _ => throw .outOfFuel
  | _ + 1, _, [] => return none
  | fuel + 1, P, ⟨_, condition, branch⟩ :: rest => do
    let holds := (← condition.watch fuel (P.child 0)).isTruthy
    let later ← Arm.watchChoose fuel ((P.after branch.declares).child 1) rest
    match holds, branch with
    | true, .hole => return later
    | true, branch => return some (branch, P.child 0)
    | false, _ => return later

def Stmt.watchRepeat : Nat → Place → Expr → Stmt → Watch Completion
  | 0, _, _, _ => throw .outOfFuel
  | fuel + 1, P, condition, body => do
    if (← condition.watch fuel P).isTruthy then
      match ← body.watch fuel (P.child 0) with
      | .normal => Stmt.watchRepeat fuel P condition body
      | .returned value => return .returned value
    else return .normal

def Definition.watchMembers :
    Nat → Place → List Definition → NameMap Value → Watch (NameMap Value)
  | 0, _, _, _ => throw .outOfFuel
  | _ + 1, _, [], members => return members
  | fuel + 1, P, ⟨_, name, initial⟩ :: rest, members => do
    let value ← Expr.watchOptional fuel P initial
    lift (Run.define name.text value)
    Definition.watchMembers fuel (P.after [name.text]) rest (members.insert name.text value)

end

def Program.watch (fuel : Nat) (P : Place) : Program → Watch Unit
  | [] => return ()
  | s :: rest => do
    let _ ← s.watch fuel (P.child 0)
    Program.watch fuel ((P.after s.declares).child 1) rest

namespace Observed

def start (clock : Clock) (entries : List (String × Value)) : Observed :=
  ⟨⟨.start clock entries, fun _ => [], fun _ => ⟨.top 0, false⟩⟩, []⟩

/-- Runs the program with a given number in the session. -/
def interpret (o : Observed) (program fuel : Nat) (p : Program) : Observed :=
  let o' := ((Program.watch fuel (.top program) p).run o).2
  { o' with state := { o'.state with machine := (o.state.machine.interpret fuel p).2 } }

/-- Resolves and runs programs, each with its own amount of fuel. They are numbered from `first`. -/
def interpretAll (o : Observed) (first : Nat) : List (Nat × Program) → Observed
  | [] => o
  | (fuel, p) :: rest => (o.interpret first fuel p.resolve.program).interpretAll (first + 1) rest

end Observed

end Treescript
