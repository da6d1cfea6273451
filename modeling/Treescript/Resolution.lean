import Treescript.Diagnostic
import Treescript.Symbols
import Treescript.Tree.Basic

/-!
# Resolution

One walk over a program before it runs. Every node that names a variable gets the number of scopes
between it and the scope that declares the name, and every broken scoping rule is reported; a
report never stops the walk. Names that no open scope declares are left to the global scope.
-/

namespace Treescript

/-- What surrounds the place the walk has reached. -/
structure Surroundings where
  inOperation : Bool
  inObject : Bool

/-- What the walk has gathered. -/
structure Resolution where
  symbols : Symbols
  diagnostics : List Diagnostic

abbrev Resolving := StateM Resolution

namespace Resolving

def report (rule : Rule) (token : Token) : Resolving Unit :=
  modify fun r => { r with diagnostics := r.diagnostics ++ [.of rule token] }

def symbols : Resolving Symbols := return (← get).symbols

def onSymbols (f : Symbols → Symbols) : Resolving Unit :=
  modify fun r => { r with symbols := f r.symbols }

/-- Declares a name, which breaks a rule if the scope has it already. -/
def declare (name : Token) (kind : SymbolKind) : Resolving Unit := do
  if (← symbols).declares name.text then report .duplicateDeclaration name
  onSymbols (·.declare ⟨name.text, kind, false, name.row⟩)

def define (name : Token) : Resolving Unit := onSymbols (·.define name.text)

/-- Runs a part of the walk in a scope of its own. -/
def inScope {α : Type} (walk : Resolving α) : Resolving α := do
  onSymbols Symbols.enter
  let result ← walk
  onSymbols Symbols.exit
  return result

def hops (name : String) : Resolving (Option Nat) := return (← symbols).hops? name

end Resolving

open Resolving

mutual

def Expr.resolve (around : Surroundings) : Expr → Resolving Expr
  | .hole => return .hole
  | .literal token value => return .literal token value
  | .variable name _ => do
    if let some symbol := (← symbols).current? name.text then
      if !symbol.defined then report .selfInitializer name
    return .variable name (← hops name.text)
  | .assign name value _ => do
    let value ← value.resolve around
    return .assign name value (← hops name.text)
  | .unary operator right => return .unary operator (← right.resolve around)
  | .binary left operator right => do
    let left ← left.resolve around
    return .binary left operator (← right.resolve around)
  | .logical left operator right => do
    let left ← left.resolve around
    return .logical left operator (← right.resolve around)
  | .count operator target name _ => do
    let target ← target.resolve around
    return .count operator target name (← hops name.text)
  | .call callee paren args => do
    let callee ← callee.resolve around
    return .call callee paren (← Expr.resolveList around args)
  | .group token inner => return .group token (← inner.resolve around)
  | .self keyword _ => do
    if around.inObject then return .self keyword (← hops selfName)
    report .selfOutsideObject keyword
    return .self keyword none
  | .get object name => return .get (← object.resolve around) name
  | .set object name value => do
    let value ← value.resolve around
    return .set (← object.resolve around) name value
  | .parent name => do
    if (← symbols).isGlobal then report .parentWithoutScope name
    return .parent name
  | .global name => return .global name

def Expr.resolveList (around : Surroundings) : List Expr → Resolving (List Expr)
  | [] => return []
  | e :: es => do
    let e ← e.resolve around
    return e :: (← Expr.resolveList around es)

end

def Expr.resolveOptional (around : Surroundings) : Option Expr → Resolving (Option Expr)
  | none => return none
  | some e => return some (← e.resolve around)

/-- Declares parameters, each of them usable at once. -/
def declareParams : List Token → Resolving Unit
  | [] => return ()
  | param :: params => do
    declare param .param
    define param
    declareParams params

/-- The members of a form: each default is resolved in the scope around the form, and the member
is then visible to the ones after it. -/
def Definition.resolveMembers (around : Surroundings) :
    List Definition → Resolving (List Definition)
  | [] => return []
  | ⟨token, name, initial⟩ :: rest => do
    let initial ← Expr.resolveOptional around initial
    declare name .variable
    define name
    return ⟨token, name, initial⟩ :: (← Definition.resolveMembers around rest)

mutual

def Stmt.resolve (around : Surroundings) : Stmt → Resolving Stmt
  | .hole => return .hole
  | .expression token value => return .expression token (← value.resolve around)
  | .print token value => return .print token (← value.resolve around)
  | .define ⟨token, name, initial⟩ => do
    declare name .variable
    let initial ← Expr.resolveOptional around initial
    define name
    return .define ⟨token, name, initial⟩
  | .block token body => return .block token (← inScope (Stmt.resolveList around body))
  | .operation o => do
    declare o.name .operation
    define o.name
    return .operation (← o.resolve around)
  | .conditional token condition branch arms otherwise => do
    let condition ← condition.resolve around
    let branch ← branch.resolve around
    let arms ← Arm.resolveList around arms
    match otherwise with
    | none => return .conditional token condition branch arms none
    | some s => return .conditional token condition branch arms (some (← s.resolve around))
  | .arm a => return .arm (← a.resolve around)
  | .loop token condition body => do
    let condition ← condition.resolve around
    return .loop token condition (← body.resolve around)
  | .return keyword value => do
    if !around.inOperation then report .returnOutsideOperation keyword
    return .return keyword (← Expr.resolveOptional around value)
  | .object token name methods => do
    declare name .object
    define name
    -- methods run one scope inside the scope that binds `self`
    let methods ← inScope do
      onSymbols fun ss => (ss.declare ⟨selfName, .self, false, name.row⟩).define selfName
      Operation.resolveList { around with inObject := true } methods
    return .object token name methods
  | .enum token name elements => do
    declare name .enum
    define name
    return .enum token name elements
  | .form token name members => do
    declare name .form
    define name
    return .form token name (← Definition.resolveMembers around members)

def Stmt.resolveList (around : Surroundings) : List Stmt → Resolving (List Stmt)
  | [] => return []
  | s :: ss => do
    let s ← s.resolve around
    return s :: (← Stmt.resolveList around ss)

/-- An operation's parameters and body share one scope. -/
def Operation.resolve (around : Surroundings) : Operation → Resolving Operation
  | ⟨token, name, params, body⟩ => do
    let body ← inScope do
      declareParams params
      Stmt.resolveList { around with inOperation := true } body
    return ⟨token, name, params, body⟩

def Operation.resolveList (around : Surroundings) : List Operation → Resolving (List Operation)
  | [] => return []
  | o :: os => do
    let o ← o.resolve around
    return o :: (← Operation.resolveList around os)

def Arm.resolve (around : Surroundings) : Arm → Resolving Arm
  | ⟨token, condition, branch⟩ => do
    let condition ← condition.resolve around
    return ⟨token, condition, ← branch.resolve around⟩

def Arm.resolveList (around : Surroundings) : List Arm → Resolving (List Arm)
  | [] => return []
  | a :: rest => do
    let a ← a.resolve around
    return a :: (← Arm.resolveList around rest)

end

/-- A program with its names resolved, and what is wrong with it. -/
structure Resolved where
  program : Program
  diagnostics : List Diagnostic

/-- Resolves a program from the top level. -/
def Program.resolve (p : Program) : Resolved :=
  let (program, r) := (Stmt.resolveList ⟨false, false⟩ p).run ⟨[], []⟩
  ⟨program, r.diagnostics⟩

/-- Resolves statements as the body of a top-level operation with the given parameters. -/
def Program.resolveAsBody (p : Program) (params : List Token) : Resolved :=
  let body : Resolving Program := inScope do
    declareParams params
    Stmt.resolveList ⟨true, false⟩ p
  let (program, r) := body.run ⟨[], []⟩
  ⟨program, r.diagnostics⟩

end Treescript
