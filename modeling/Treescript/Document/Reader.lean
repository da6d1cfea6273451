import Treescript.Document.Fault
import Treescript.Tree.Basic

/-!
# Reading programs from documents

Every node of a tree is a mapping with a `type`. Reading goes through the fields of a node in a
fixed order and stops at the first fault. A node without a `line` stands on the line read last.
Items of an `ors`, `methods` or `members` list may leave out the type their position fixes.
-/

namespace Treescript

inductive ExprType where
  | literal | variable | assign | unary | binary | logical | count | call | grouping
  | self | get | set | parent | global
  deriving DecidableEq, Repr

def ExprType.ofName? : String → Option ExprType
  | "Literal" => some .literal
  | "Variable" => some .variable
  | "Assign" => some .assign
  | "Unary" => some .unary
  | "Binary" => some .binary
  | "Logical" => some .logical
  | "Count" => some .count
  | "Call" => some .call
  | "Grouping" => some .grouping
  | "Self" => some .self
  | "Get" => some .get
  | "Set" => some .set
  | "Parent" => some .parent
  | "Global" => some .global
  | _ => none

inductive StmtType where
  | expression | print | define | block | operation | conditional | loop | return
  | object | enum | form
  deriving DecidableEq, Repr

def StmtType.ofName? : String → Option StmtType
  | "Expression" => some .expression
  | "Print" => some .print
  | "Def" => some .define
  | "Block" => some .block
  | "Op" => some .operation
  | "When" => some .conditional
  | "While" => some .loop
  | "Return" => some .return
  | "Obj" => some .object
  | "Enum" => some .enum
  | "Form" => some .form
  | _ => none

namespace Document

/-- Reading keeps the line last seen and stops at the first fault. -/
abbrev Reading := StateT Int (Except Invalid)

/-- A document known to be a node: its fields and its type. -/
structure Opened (d : Document) where
  fields : List (String × Document)
  type : String
  path : Path
  isMapping : d = mapping fields

/-- Opens a document as a node, taking its line. A node without a `type` field has the type
`implied` by its position, if there is one. -/
def openAs (implied : Option String) (d : Document) (path : Path) : Reading (Opened d) :=
  match d with
  | mapping fields => do
    let type :=
      match fields.lookup "type" with
      | none => implied.getD ""
      | some (text s) => s
      | some _ => ""
    if type = "" then throw ⟨path, none, .noType⟩
    match fields.lookup "line" with
    | some (int n) => set n.toInt
    | _ => pure ()
    return ⟨fields, type, path, rfl⟩
  | other => throw ⟨path, none, .notMapping other.typeName⟩

/-- A token on the current line. -/
def token (kind : TokenKind) (word : String) (literal : Literal := .null) : Reading Token := do
  return ⟨kind, word, ← get, literal⟩

def keyword (k : Keyword) : Reading Token := token (.keyword k) k.spelling

namespace Opened

variable {d : Document}

def fail {α : Type} (n : Opened d) (fault : Fault) : Reading α :=
  throw ⟨n.path, some n.type, fault⟩

/-- The path of a field. -/
def child (n : Opened d) (key : String) : Path := n.path ++ [.key key]

theorem sizeOf_mapping (n : Opened d) : sizeOf (mapping n.fields) = sizeOf d :=
  congrArg sizeOf n.isMapping.symm

theorem sizeOf_nil_lt (n : Opened d) : sizeOf ([] : List Document) < sizeOf d := by
  rw [← n.sizeOf_mapping, mapping.sizeOf_spec, List.nil.sizeOf_spec]
  have positive : 0 < sizeOf n.fields := by
    cases n.fields with
    | nil => rw [List.nil.sizeOf_spec]; omega
    | cons => rw [List.cons.sizeOf_spec]; omega
  omega

/-- The value of a field, unless it is missing or null. -/
def field? (n : Opened d) (key : String) : Option { c : Document // sizeOf c < sizeOf d } :=
  (Document.field? n.fields key).map fun c => ⟨c.1, n.sizeOf_mapping ▸ c.2⟩

/-- The value of a field that a node cannot do without. -/
def required (n : Opened d) (key : String) : Reading { c : Document // sizeOf c < sizeOf d } :=
  match n.field? key with
  | some c => pure c
  | none => n.fail (.missing key)

/-- The items of a list field, none when the field is missing or null. -/
def items (n : Opened d) (key : String) (fault : Fault) :
    Reading { cs : List Document // sizeOf cs < sizeOf d } :=
  match n.field? key with
  | none => pure ⟨[], n.sizeOf_nil_lt⟩
  | some ⟨list cs, h⟩ => pure ⟨cs, by simp at h; omega⟩
  | some _ => n.fail fault

/-- A name: a text that is not empty, or an integer, whose value the token keeps. -/
def name (n : Opened d) (key : String) : Reading Token :=
  match n.field? key with
  | none => n.fail (.missing key)
  | some ⟨text s, _⟩ => if s = "" then n.fail (.emptyName key) else token .identifier s
  | some ⟨int i, _⟩ => token .int (toString i.toInt) (.int i)
  | some ⟨other, _⟩ => n.fail (.notName key other.typeName)

/-- The names of a list, from a given index on. -/
def nameList (n : Opened d) (key : String) : List Document → Nat → Reading (List Token)
  | [], _ => pure []
  | text s :: rest, index => do
    if s = "" then n.fail (.notNameAt key index)
    let first ← token .identifier s
    return first :: (← n.nameList key rest (index + 1))
  | _ :: _, index => n.fail (.notNameAt key index)

def names (n : Opened d) (key : String) : Reading (List Token) := do
  let ⟨cs, _⟩ ← n.items key (.notNames key)
  n.nameList key cs 0

/-- The operator of a node, looked up in the table for its type. -/
def operator (n : Opened d) (table : String → Option Operator) : Reading Token :=
  let word :=
    match n.field? "operator" with
    | some ⟨text s, _⟩ => s
    | _ => ""
  match table word with
  | some o => token (.operator o) word
  | none => n.fail (.unknownOperator word)

/-- A literal; a missing value is `none`. -/
def literal (n : Opened d) : Reading Expr :=
  match n.field? "value" with
  | none => do return .literal (← keyword .none) .null
  | some ⟨bool true, _⟩ => do return .literal (← keyword .true) (.bool true)
  | some ⟨bool false, _⟩ => do return .literal (← keyword .false) (.bool false)
  | some ⟨int i, _⟩ => do return .literal (← token .int (toString i.toInt) (.int i)) (.int i)
  | some ⟨float x, _⟩ => do
    return .literal (← token .float (Decimal.text .positional x) (.float x)) (.float x)
  | some ⟨text s, _⟩ => do return .literal (← token .text s (.text s)) (.text s)
  | some ⟨other, _⟩ => n.fail (.unsupportedLiteral other.typeName)

end Opened

mutual

def expression (d : Document) (path : Path) : Reading Expr := do
  let n ← openAs none d path
  match ExprType.ofName? n.type with
  | some .literal => n.literal
  | some .variable => return .variable (← n.name "name") none
  | some .assign => do
    let name ← n.name "name"
    let ⟨value, _⟩ ← n.required "value"
    return .assign name (← expression value (n.child "value")) none
  | some .unary => do
    let operator ← n.operator Operator.unary?
    let ⟨right, _⟩ ← n.required "right"
    return .unary operator (← expression right (n.child "right"))
  | some .binary => do
    let operator ← n.operator Operator.binary?
    let ⟨leftDoc, _⟩ ← n.required "left"
    let left ← expression leftDoc (n.child "left")
    let ⟨right, _⟩ ← n.required "right"
    return .binary left operator (← expression right (n.child "right"))
  | some .logical => do
    let operator ← n.operator Operator.logical?
    let ⟨leftDoc, _⟩ ← n.required "left"
    let left ← expression leftDoc (n.child "left")
    let ⟨right, _⟩ ← n.required "right"
    return .logical left operator (← expression right (n.child "right"))
  | some .count => do
    let operator ← n.operator Operator.count?
    let name ← n.name "name"
    return .count operator (.variable name none) name none
  | some .call => do
    let ⟨callee, _⟩ ← n.required "callee"
    let callee ← expression callee (n.child "callee")
    let ⟨args, _⟩ ← n.items "args" (.notExpressions "args")
    let args ← expressions args (n.child "args") 0
    return .call callee (← token (.mark .close) ")") args
  | some .grouping => do
    let opening ← token (.mark .open) "("
    let ⟨inner, _⟩ ← n.required "expression"
    return .group opening (← expression inner (n.child "expression"))
  | some .self => return .self (← keyword .self) none
  | some .get => do
    let ⟨object, _⟩ ← n.required "object"
    let object ← expression object (n.child "object")
    return .get object (← n.name "name")
  | some .set => do
    let ⟨object, _⟩ ← n.required "object"
    let object ← expression object (n.child "object")
    let name ← n.name "name"
    let ⟨value, _⟩ ← n.required "value"
    return .set object name (← expression value (n.child "value"))
  | some .parent => return .parent (← n.name "name")
  | some .global => return .global (← n.name "name")
  | none => n.fail .notExpression
termination_by sizeOf d

def expressions (ds : List Document) (path : Path) (index : Nat) : Reading (List Expr) :=
  match ds with
  | [] => pure []
  | d :: rest => do
    let first ← expression d (path ++ [.index index])
    return first :: (← expressions rest path (index + 1))
termination_by sizeOf ds

end

namespace Opened

variable {d : Document}

def requiredExpr (n : Opened d) (key : String) : Reading Expr := do
  let ⟨c, _⟩ ← n.required key
  expression c (n.child key)

def optionalExpr (n : Opened d) (key : String) : Reading (Option Expr) :=
  match n.field? key with
  | none => pure none
  | some ⟨c, _⟩ => some <$> expression c (n.child key)

def definition (n : Opened d) : Reading Definition := do
  let token ← keyword .define
  let name ← n.name "name"
  return ⟨token, name, ← n.optionalExpr "initial"⟩

end Opened

/-- The members of a form, from a given index on. -/
def members (path : Path) : List Document → Nat → Reading (List Definition)
  | [], _ => pure []
  | d :: rest, index => do
    let n ← openAs (some "Def") d (path ++ [.index index])
    if n.type ≠ "Def" then n.fail .notDefinition
    let first ← n.definition
    return first :: (← members path rest (index + 1))

mutual

def statement (d : Document) (path : Path) : Reading Stmt := do
  let n ← openAs none d path
  match StmtType.ofName? n.type with
  | some .expression => do
    let row ← get
    let value ← n.requiredExpr "expression"
    return .expression ⟨.identifier, value.token.text, row, .null⟩ value
  | some .print => do
    let token ← keyword .log
    return .print token (← n.requiredExpr "expression")
  | some .define => .define <$> n.definition
  | some .block => do
    let token ← token (.mark .bodyStart) "|"
    let ⟨body, _⟩ ← n.items "statements" (.notStatements "statements")
    return .block token (← statements body (n.child "statements") 0)
  | some .operation => .operation <$> operation d n
  | some .conditional => do
    let token ← keyword .when
    let condition ← n.requiredExpr "condition"
    let ⟨branch, _⟩ ← n.required "then"
    let branch ← statement branch (n.child "then")
    let ⟨ors, _⟩ ← n.items "ors" (.notList "ors")
    let arms ← arms ors (n.child "ors") 0
    match n.field? "else" with
    | none => return .conditional token condition branch arms none
    | some ⟨otherwise, _⟩ =>
      return .conditional token condition branch arms
        (some (← statement otherwise (n.child "else")))
  | some .loop => do
    let token ← keyword .while
    let condition ← n.requiredExpr "condition"
    let ⟨body, _⟩ ← n.required "body"
    return .loop token condition (← statement body (n.child "body"))
  | some .return => do
    let token ← keyword .return
    return .return token (← n.optionalExpr "value")
  | some .object => do
    let token ← keyword .object
    let name ← n.name "name"
    let ⟨ms, _⟩ ← n.items "methods" (.notList "methods")
    return .object token name (← methods ms (n.child "methods") 0)
  | some .enum => do
    let token ← keyword .enum
    let name ← n.name "name"
    return .enum token name (← n.names "elements")
  | some .form => do
    let token ← keyword .form
    let name ← n.name "name"
    let ⟨ms, _⟩ ← n.items "members" (.notList "members")
    return .form token name (← members (n.child "members") ms 0)
  | none => n.fail .notStatement
termination_by 2 * sizeOf d + 1
decreasing_by all_goals omega

def operation (d : Document) (n : Opened d) : Reading Operation := do
  let token ← keyword .operation
  let name ← n.name "name"
  let params ← n.names "params"
  let ⟨body, _⟩ ← n.items "body" (.notStatements "body")
  return ⟨token, name, params, ← statements body (n.child "body") 0⟩
termination_by 2 * sizeOf d
decreasing_by all_goals omega

def statements (ds : List Document) (path : Path) (index : Nat) : Reading (List Stmt) :=
  match ds with
  | [] => pure []
  | d :: rest => do
    let first ← statement d (path ++ [.index index])
    return first :: (← statements rest path (index + 1))
termination_by 2 * sizeOf ds
decreasing_by all_goals (rw [List.cons.sizeOf_spec]; omega)

def arms (ds : List Document) (path : Path) (index : Nat) : Reading (List Arm) :=
  match ds with
  | [] => pure []
  | d :: rest => do
    let n ← openAs (some "Or") d (path ++ [.index index])
    let token ← keyword .or
    let condition ← n.requiredExpr "condition"
    let ⟨branch, _⟩ ← n.required "branch"
    let branch ← statement branch (n.child "branch")
    return ⟨token, condition, branch⟩ :: (← arms rest path (index + 1))
termination_by 2 * sizeOf ds
decreasing_by all_goals (rw [List.cons.sizeOf_spec]; omega)

def methods (ds : List Document) (path : Path) (index : Nat) : Reading (List Operation) :=
  match ds with
  | [] => pure []
  | d :: rest => do
    let n ← openAs (some "Op") d (path ++ [.index index])
    if n.type ≠ "Op" then n.fail .notOperation
    let first ← operation d n
    return first :: (← methods rest path (index + 1))
termination_by 2 * sizeOf ds
decreasing_by all_goals (rw [List.cons.sizeOf_spec]; omega)

end

/-- Reads the statements of a program; the first line is 1. -/
def program (ds : List Document) : Except Invalid Program :=
  (statements ds [.key "statements"] 0).run' 1

end Document

end Treescript
