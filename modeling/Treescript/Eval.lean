import Treescript.Machine
import Treescript.Operators

/-!
# Evaluation

Runs expressions and statements on a machine. Every step of the recursion uses up fuel, so that
evaluation is a total function; a run that ends does so with any larger amount of fuel as well.
-/

namespace Treescript

/-- The result of an operator, or a failure at its token. -/
def Run.operator (token : Token) : Except Cause Value → Run Value
  | .ok v => pure v
  | .error cause => Run.fail token cause

/-- Reads a property: a field of the holder, else what its type has under the name. A method comes
bound to the instance it is read from. -/
def Run.getProperty (of : TypeRef) (id : Nat) (name : Token) : Run Value := do
  let s ← Run.store
  let fields ← Run.found (s.fields? id)
  if let some value := fields.get? name.text then return value
  match of with
  | .object t => do
    let type ← Run.found s.objects[t]?
    match type.methods.get? name.text with
    | none => Run.fail name (.undefinedProperty of name.text)
    | some method => do
      let closure ← Run.found s.closures[method]?
      return .operation (← Run.onStore (·.bindSelf closure (.holder of id)))
  | .enum t => do
    let type ← Run.found s.enums[t]?
    match name.literal.integer?.bind fun n => type.elementName? n.toInt with
    | some element => return .text element
    | none =>
      match type.ordinal? name.text with
      | some ordinal => return .int (Int64.ofNat ordinal)
      | none => Run.fail name (.undefinedProperty of name.text)
  | .form t => do
    let type ← Run.found s.forms[t]?
    match type.members.get? name.text with
    | some value => return value
    | none => Run.fail name (.undefinedProperty of name.text)

/-- Writes a field of a holder. -/
def Run.setProperty (id : Nat) (name : Token) (value : Value) : Run Unit :=
  modify fun m => { m with store := m.store.setField id name.text value }

/-- Declares an object type in the current scope. The name is bound to `none` first. -/
def Run.declareObject (name : Token) (methods : List Operation) : Run Unit := do
  Run.define name.text .none
  let scope := (← get).current
  let table ← Run.onStore (·.addMethods scope methods)
  let type ← Run.onStore (·.addObject ⟨name.text, table⟩)
  Run.define name.text (.type type)
  Run.log .debug "object declared"
    [("name", .text name.text), ("methods", .int (Int64.ofNat table.size)),
      ("line", .int (Int64.ofInt name.row))]

/-- Declares an enum type in the current scope. -/
def Run.declareEnum (name : Token) (elements : List Token) : Run Unit := do
  Run.define name.text .none
  let type ← Run.onStore (·.addEnum ⟨name.text, elements.map (·.text)⟩)
  Run.define name.text (.type type)
  Run.log .debug "enum declared"
    [("name", .text name.text), ("elements", .int (Int64.ofNat elements.length)),
      ("line", .int (Int64.ofInt name.row))]

/-- Binds a form type whose member defaults have been evaluated. -/
def Run.declareForm (name : Token) (members : NameMap Value) : Run Unit := do
  let type ← Run.onStore (·.addForm ⟨name.text, members⟩)
  Run.define name.text (.type type)
  Run.log .debug "form declared"
    [("name", .text name.text), ("members", .int (Int64.ofNat members.size)),
      ("line", .int (Int64.ofInt name.row))]

/-- A scope for a call: inside the scope of the operation, with the parameters bound. -/
def Run.enterCall (closure : Closure) (args : List Value) : Run ScopeId :=
  Run.onStore fun s =>
    let (s, scope) := s.enterScope closure.scope
    let bindings := (closure.declaration.params.map (·.text)).zip args
    ({ s with scopes := s.scopes.defineAll scope bindings }, scope)

mutual

def Expr.eval : Nat → Expr → Run Value
  | 0, _ => throw .outOfFuel
  | _ + 1, .hole => throw .fault
  | _ + 1, .literal _ value => return .ofLiteral value
  | _ + 1, .variable name hops => Run.lookup name name.text hops
  | fuel + 1, .assign name value hops => do
    let value ← value.eval fuel
    Run.assign name hops value
  | fuel + 1, .unary operator right => do
    let right ← right.eval fuel
    Run.operator operator (Operator.prefixed operator right)
  | fuel + 1, .binary left operator right => do
    let left ← left.eval fuel
    let right ← right.eval fuel
    Run.operator operator (Operator.between (← Run.store) operator left right)
  | fuel + 1, .logical left operator right => do
    let left ← left.eval fuel
    -- `or` is settled by a truthy left side, `and` by one that is not
    if left.isTruthy = (operator.kind == .operator .or) then return left
    right.eval fuel
  | fuel + 1, .count operator target name hops => do
    let current ← target.eval fuel
    let updated ← Run.operator operator (Operator.counted operator current)
    Run.assign name hops updated
  | fuel + 1, .call callee paren args => do
    let callee ← callee.eval fuel
    let args ← Expr.evalList fuel args
    match (← Run.store).arity? callee with
    | none => Run.refuse paren (.notCallable callee.kind) args
    | some arity =>
      if args.length ≠ arity then Run.refuse paren (.arity arity args.length) args
      else Run.locating paren (callee.call fuel args)
  | fuel + 1, .group _ inner => inner.eval fuel
  | _ + 1, .self keyword hops => Run.lookup keyword selfName hops
  | fuel + 1, .get object name => do
    match ← object.eval fuel with
    | .holder of id => Run.getProperty of id name
    | target => Run.fail name (.noProperties target.kind)
  | fuel + 1, .set object name value => do
    let value ← value.eval fuel
    match ← object.eval fuel with
    | .holder _ id => do
      Run.setProperty id name value
      return value
    | target => Run.fail name (.noFields target.kind)
  | _ + 1, .parent name => do
    let m ← get
    match m.store.scopes.outer? m.current with
    | none => Run.fail name (.noEnclosingScope name.text)
    | some outer =>
      match m.store.scopes.resolve? outer name.text with
      | some value => return value
      | none => Run.fail name (.undefinedVariable name.text)
  | _ + 1, .global name => do
    let m ← get
    match m.store.scopes.get? m.globals name.text with
    | some value => return value
    | none => Run.fail name (.undefinedGlobal name.text)

/-- The values of expressions, from left to right. -/
def Expr.evalList : Nat → List Expr → Run (List Value)
  | 0, _ => throw .outOfFuel
  | _ + 1, [] => return []
  | fuel + 1, e :: es => do
    let value ← e.eval fuel
    return value :: (← Expr.evalList fuel es)

/-- Calls a value with as many arguments as it takes. -/
def Value.call : Nat → Value → List Value → Run Value
  | 0, _, _ => throw .outOfFuel
  | fuel + 1, .operation id, args => do
    let closure ← Run.found (← Run.store).closures[id]?
    Closure.call fuel closure args
  | _ + 1, .native n, args => do
    let time ← if n = .clock then Run.now else pure 0
    match ← Run.found (n.apply (← Run.store) time (args.map .value)) with
    | .ok value => return value
    | .error cause => Run.fail .blank cause
  | fuel + 1, .type t, args => do
    let instance_ := Value.holder t (← Run.onStore (·.addHolder))
    match (← Run.store).pilot? t with
    | none => return instance_
    | some pilot => do
      let closure ← Run.found (← Run.store).closures[pilot]?
      let bound ← Run.onStore (·.bindSelf closure instance_)
      let closure ← Run.found (← Run.store).closures[bound]?
      let _ ← Closure.call fuel closure args
      return instance_
  | _ + 1, _, _ => throw .fault

/-- Runs an operation in a scope of its own. The result is what it returns, or `none`; a pilot
hands back its instance instead. -/
def Closure.call : Nat → Closure → List Value → Run Value
  | 0, _, _ => throw .outOfFuel
  | fuel + 1, closure, args => do
    let scope ← Run.enterCall closure args
    let completion ← Run.within scope (Stmt.execList fuel closure.declaration.body)
    let self? := (← Run.store).scopes.get? closure.scope selfName
    match closure.isPilot, self?, completion with
    | true, some self, _ => return self
    | _, _, .returned value => return value
    | _, _, .normal => return .none

def Stmt.exec : Nat → Stmt → Run Completion
  | 0, _ => throw .outOfFuel
  | _ + 1, .hole => throw .fault
  | fuel + 1, .expression _ value => do
    let _ ← value.eval fuel
    return .normal
  | fuel + 1, .print _ value => do
    let value ← value.eval fuel
    Run.print ((← Run.store).display value)
    return .normal
  | fuel + 1, .define ⟨_, name, initial⟩ => do
    let value ← Expr.evalOptional fuel initial
    Run.define name.text value
    return .normal
  | fuel + 1, .block _ body => do
    let current := (← get).current
    let scope ← Run.onStore (·.enterScope current)
    Run.within scope (Stmt.execList fuel body)
  | _ + 1, .operation declaration => do
    let scope := (← get).current
    let id ← Run.onStore (·.addClosure ⟨declaration, scope, false⟩)
    Run.define declaration.name.text (.operation id)
    return .normal
  | fuel + 1, .conditional _ condition branch arms otherwise => do
    if (← condition.eval fuel).isTruthy then branch.exec fuel
    else
      match ← Arm.choose fuel arms, otherwise with
      | some chosen, _ => chosen.exec fuel
      | none, some branch => branch.exec fuel
      | none, none => return .normal
  | _ + 1, .arm a => Run.fail a.token .strayArm
  | fuel + 1, .loop _ condition body => Stmt.repeat fuel condition body
  | fuel + 1, .return _ value => return .returned (← Expr.evalOptional fuel value)
  | _ + 1, .object _ name methods => do
    Run.declareObject name methods
    return .normal
  | _ + 1, .enum _ name elements => do
    Run.declareEnum name elements
    return .normal
  | fuel + 1, .form _ name members => do
    Run.define name.text .none
    Run.declareForm name (← Definition.evalMembers fuel members .empty)
    return .normal

/-- The value of an optional expression, `none` when it is left out. -/
def Expr.evalOptional : Nat → Option Expr → Run Value
  | 0, _ => throw .outOfFuel
  | _ + 1, none => return .none
  | fuel + 1, some e => e.eval fuel

/-- Runs statements one after the other, up to the first that returns. -/
def Stmt.execList : Nat → List Stmt → Run Completion
  | 0, _ => throw .outOfFuel
  | _ + 1, [] => return .normal
  | fuel + 1, s :: ss => do
    match ← s.exec fuel with
    | .normal => Stmt.execList fuel ss
    | .returned value => return .returned value

/-- The branch of the first arm whose condition holds and that has a branch. All conditions are
evaluated, also those after the first that holds. -/
def Arm.choose : Nat → List Arm → Run (Option Stmt)
  | 0, _ => throw .outOfFuel
  | _ + 1, [] => return none
  | fuel + 1, ⟨_, condition, branch⟩ :: rest => do
    let holds := (← condition.eval fuel).isTruthy
    let later ← Arm.choose fuel rest
    match holds, branch with
    | true, .hole => return later
    | true, branch => return some branch
    | false, _ => return later

/-- Runs the body of a loop as long as the condition holds and the body does not return. -/
def Stmt.repeat : Nat → Expr → Stmt → Run Completion
  | 0, _, _ => throw .outOfFuel
  | fuel + 1, condition, body => do
    if (← condition.eval fuel).isTruthy then
      match ← body.exec fuel with
      | .normal => Stmt.repeat fuel condition body
      | .returned value => return .returned value
    else return .normal

/-- The defaults of form members in order. Each member is also bound in the current scope. -/
def Definition.evalMembers : Nat → List Definition → NameMap Value → Run (NameMap Value)
  | 0, _, _ => throw .outOfFuel
  | _ + 1, [], members => return members
  | fuel + 1, ⟨_, name, initial⟩ :: rest, members => do
    let value ← Expr.evalOptional fuel initial
    Run.define name.text value
    Definition.evalMembers fuel rest (members.insert name.text value)

end

end Treescript
