import Treescript.Tree.Walk

/-!
# Places of a program text

What surrounds each node of a program, read off the text alone. A local scope is opened by a block,
by an operation (parameters and body together) and around the methods of an object, where it holds
only `self`. A place lists the local scopes around it, innermost first, and for each of them the
names that are declared in it before the place. The top level is not a local scope.

`Program.visits` lists the nodes and the declarations of a program in the order in which
resolution comes to them, each with its place.
-/

namespace Treescript

mutual

/-- The names a statement declares in the scope it stands in. -/
def Stmt.declares : Stmt → List String
  | .define d => [d.name.text]
  | .operation o => [o.name.text]
  | .conditional _ _ branch arms none => branch.declares ++ Arm.declaresList arms
  | .conditional _ _ branch arms (some otherwise) =>
    branch.declares ++ Arm.declaresList arms ++ otherwise.declares
  | .arm a => a.declares
  | .loop _ _ body => body.declares
  | .object _ name _ => [name.text]
  | .enum _ name _ => [name.text]
  | .form _ name members => name.text :: members.map (·.name.text)
  | .hole | .expression .. | .print .. | .block .. | .return .. => []

def Stmt.declaresList : List Stmt → List String
  | [] => []
  | s :: ss => s.declares ++ Stmt.declaresList ss

def Arm.declares : Arm → List String
  | ⟨_, _, branch⟩ => branch.declares

def Arm.declaresList : List Arm → List String
  | [] => []
  | a :: rest => a.declares ++ Arm.declaresList rest

end

def Operation.locals (o : Operation) : List String :=
  o.params.map (·.text) ++ Stmt.declaresList o.body

/-- A local scope of a text: where it is opened and all names that are declared in it. -/
structure Region where
  program : Nat
  path : List Nat
  names : List String

/-- A local scope around a place, with the names declared in it before the place. -/
structure Layer where
  region : Region
  seen : List String

structure Place where
  /-- The number of the program among those of its session. -/
  program : Nat
  /-- Tells the statements of a program apart. -/
  path : List Nat
  layers : List Layer
  inOperation : Bool
  inObject : Bool
  /-- The name of the definition in whose initial value the place is. -/
  defining : Option String

namespace Place

def top (program : Nat) : Place := ⟨program, [], [], false, false, none⟩

def child (P : Place) (i : Nat) : Place := { P with path := i :: P.path }

/-- The place after some declarations. At top level they leave no trace. -/
def after (P : Place) (names : List String) : Place :=
  { P with
    layers :=
      match P.layers with
      | [] => []
      | layer :: outer => { layer with seen := layer.seen ++ names } :: outer }

def enter (P : Place) (names : List String) : Place :=
  { P with layers := ⟨⟨P.program, P.path, names⟩, []⟩ :: P.layers }

/-- Inside the initial value of a definition, whose name counts as declared. -/
def initializer (P : Place) (name : String) : Place :=
  { P.after [name] with defining := some name }

def operation (P : Place) (o : Operation) : Place :=
  { P.enter o.locals with inOperation := true }

def object (P : Place) : Place :=
  { (P.enter [selfName]).after [selfName] with inObject := true }

def regions (P : Place) : List Region := P.layers.map (·.region)

def isLocal (P : Place) : Bool := !P.layers.isEmpty

/-- Whether the `k`-th local scope around a place declares a name before the place. -/
def Declared (P : Place) (k : Nat) (name : String) : Prop :=
  ∃ layer ∈ P.layers[k]?, name ∈ layer.seen

instance (P : Place) (k : Nat) (name : String) : Decidable (P.Declared k name) :=
  inferInstanceAs (Decidable (∃ layer ∈ P.layers[k]?, name ∈ layer.seen))

/-- The number of local scopes between a place and the nearest one that declares a name before
it. -/
def distance? (P : Place) (name : String) : Option Nat :=
  P.layers.findIdx? fun layer => decide (name ∈ layer.seen)

theorem after_nil (P : Place) : P.after [] = P := by
  obtain ⟨_, _, layers, _, _, _⟩ := P
  cases layers <;> simp [after]

theorem after_append (P : Place) (xs ys : List String) :
    P.after (xs ++ ys) = (P.after xs).after ys := by
  obtain ⟨_, _, layers, _, _, _⟩ := P
  cases layers <;> simp [after]

theorem after_cons (P : Place) (x : String) (xs : List String) :
    P.after (x :: xs) = (P.after [x]).after xs :=
  P.after_append [x] xs

theorem regions_after (P : Place) (names : List String) :
    (P.after names).regions = P.regions := by
  obtain ⟨_, _, layers, _, _, _⟩ := P
  cases layers <;> rfl

end Place

/-- What resolution comes to. Form members and methods are not statements of their own. -/
inductive Item where
  | node (n : Node)
  | member (d : Definition)
  | method (o : Operation)
  | declaration (name : Token)

structure Visit where
  item : Item
  place : Place

mutual

def Expr.parts : Expr → List Expr
  | e@(.assign _ value _) => e :: value.parts
  | e@(.unary _ right) => e :: right.parts
  | e@(.binary left _ right) => e :: (left.parts ++ right.parts)
  | e@(.logical left _ right) => e :: (left.parts ++ right.parts)
  | e@(.count _ target _ _) => e :: target.parts
  | e@(.call callee _ args) => e :: (callee.parts ++ Expr.partsOfList args)
  | e@(.group _ inner) => e :: inner.parts
  | e@(.get object _) => e :: object.parts
  | e@(.set object _ value) => e :: (value.parts ++ object.parts)
  | .hole => [.hole]
  | e@(.literal ..) => [e]
  | e@(.variable ..) => [e]
  | e@(.self ..) => [e]
  | e@(.parent ..) => [e]
  | e@(.global ..) => [e]

def Expr.partsOfList : List Expr → List Expr
  | [] => []
  | e :: es => e.parts ++ Expr.partsOfList es

end

/-- An expression declares nothing, so all of it is at one place. -/
def Expr.visits (P : Place) (e : Expr) : List Visit :=
  e.parts.map fun part => ⟨.node (.expr part), P⟩

def Expr.visitsOptional (P : Place) : Option Expr → List Visit
  | none => []
  | some e => e.visits P

def Token.visitsOfParams (P : Place) : List Token → List Visit
  | [] => []
  | param :: params =>
    ⟨.declaration param, P⟩ :: Token.visitsOfParams (P.after [param.text]) params

/-- A form member counts as declared after its own default. -/
def Definition.visitsOfMembers (P : Place) : List Definition → List Visit
  | [] => []
  | d :: rest =>
    ⟨.member d, P⟩ :: Expr.visitsOptional P d.initial ++
      ⟨.declaration d.name, P⟩ :: Definition.visitsOfMembers (P.after [d.name.text]) rest

mutual

def Stmt.visits (P : Place) : Stmt → List Visit
  | .hole => [⟨.node (.stmt .hole), P⟩]
  | s@(.expression _ value) => ⟨.node (.stmt s), P⟩ :: value.visits P
  | s@(.print _ value) => ⟨.node (.stmt s), P⟩ :: value.visits P
  | s@(.define d) =>
    ⟨.node (.stmt s), P⟩ :: ⟨.declaration d.name, P⟩ ::
      Expr.visitsOptional (P.initializer d.name.text) d.initial
  | s@(.block _ body) =>
    ⟨.node (.stmt s), P⟩ :: Stmt.visitsOfList (P.enter (Stmt.declaresList body)) body
  | s@(.operation o) =>
    ⟨.node (.stmt s), P⟩ :: ⟨.declaration o.name, P⟩ :: o.visits (P.after [o.name.text])
  | s@(.conditional _ condition branch arms none) =>
    ⟨.node (.stmt s), P⟩ :: condition.visits P ++ branch.visits (P.child 0) ++
      Arm.visitsOfList ((P.after branch.declares).child 1) arms
  | s@(.conditional _ condition branch arms (some otherwise)) =>
    ⟨.node (.stmt s), P⟩ :: condition.visits P ++ branch.visits (P.child 0) ++
      Arm.visitsOfList ((P.after branch.declares).child 1) arms ++
      otherwise.visits ((P.after (branch.declares ++ Arm.declaresList arms)).child 2)
  | s@(.arm a) => ⟨.node (.stmt s), P⟩ :: a.visits P
  | s@(.loop _ condition body) =>
    ⟨.node (.stmt s), P⟩ :: condition.visits P ++ body.visits (P.child 0)
  | s@(.return _ value) => ⟨.node (.stmt s), P⟩ :: Expr.visitsOptional P value
  | s@(.object _ name methods) =>
    ⟨.node (.stmt s), P⟩ :: ⟨.declaration name, P⟩ ::
      Operation.visitsOfList (P.after [name.text]).object methods
  | s@(.enum _ name _) => [⟨.node (.stmt s), P⟩, ⟨.declaration name, P⟩]
  | s@(.form _ name members) =>
    ⟨.node (.stmt s), P⟩ :: ⟨.declaration name, P⟩ ::
      Definition.visitsOfMembers (P.after [name.text]) members

def Stmt.visitsOfList (P : Place) : List Stmt → List Visit
  | [] => []
  | s :: ss => s.visits (P.child 0) ++ Stmt.visitsOfList ((P.after s.declares).child 1) ss

def Operation.visits (P : Place) : Operation → List Visit
  | o@⟨_, _, params, body⟩ =>
    Token.visitsOfParams (P.operation o) params ++
      Stmt.visitsOfList ((P.operation o).after (params.map (·.text))) body

def Operation.visitsOfList (P : Place) : List Operation → List Visit
  | [] => []
  | o :: os =>
    ⟨.method o, P.child 0⟩ :: o.visits (P.child 0) ++
      Operation.visitsOfList (P.child 1) os

def Arm.visits (P : Place) : Arm → List Visit
  | ⟨_, condition, branch⟩ => condition.visits P ++ branch.visits P

def Arm.visitsOfList (P : Place) : List Arm → List Visit
  | [] => []
  | a :: rest =>
    ⟨.node (.stmt (.arm a)), P.child 0⟩ :: a.visits (P.child 0) ++
      Arm.visitsOfList ((P.after a.declares).child 1) rest

end

/-- The visits of the program with a given number in its session. -/
def Program.visits (program : Nat) (p : Program) : List Visit :=
  Stmt.visitsOfList (.top program) p

end Treescript
