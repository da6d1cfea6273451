import Mathlib.Logic.Relation
import Treescript.Proofs.StoreHistory

/-!
# Evaluations and their parts

A run is made of evaluations, and an evaluation of further ones, its parts. `Evaluation.parts` lists
the parts of an evaluation in the order in which it comes to them, each with the machine that it
begins on. A part is listed only if those before it have ended with a result.
-/

namespace Treescript

inductive Job where
  | expr (e : Expr)
  | exprs (es : List Expr)
  | optional (e? : Option Expr)
  | invocation (callee : Value) (args : List Value)
  /-- An operation whose arguments have been counted. -/
  | application (closure : Closure) (args : List Value)
  | stmt (s : Stmt)
  | stmts (ss : List Stmt)
  /-- The conditions of arms, up to the choice of a branch. -/
  | arms (arms : List Arm)
  /-- What is left of a loop from the beginning of a round on. -/
  | rounds (condition : Expr) (body : Stmt)
  /-- The members of a form that come after those that are there. -/
  | members (ds : List Definition) (before : NameMap Value)
  | program (p : Program)

namespace Job

@[reducible] def Result : Job → Type
  | expr _ | optional _ | invocation .. | application .. => Value
  | exprs _ => List Value
  | stmt _ | stmts _ | rounds .. => Completion
  | arms _ => Option Stmt
  | members .. => NameMap Value
  | program _ => Unit

def run (fuel : Nat) : (t : Job) → Run t.Result
  | expr e => e.eval fuel
  | exprs es => Expr.evalList fuel es
  | optional e? => Expr.evalOptional fuel e?
  | invocation callee args => callee.call fuel args
  | application closure args => closure.call fuel args
  | stmt s => s.exec fuel
  | stmts ss => Stmt.execList fuel ss
  | arms as => Arm.choose fuel as
  | rounds condition body => Stmt.repeat fuel condition body
  | members ds before => Definition.evalMembers fuel ds before
  | program p => p.run fuel

theorem continues (fuel : Nat) (t : Job) : Run.Continues (t.run fuel) := by
  cases t with
  | expr e => exact e.continues fuel
  | exprs es => exact Expr.continuesList fuel es
  | optional e? => exact Expr.continuesOptional fuel e?
  | invocation callee args => exact callee.continuesCall fuel args
  | application closure args => exact closure.continues fuel args
  | stmt s => exact s.continues fuel
  | stmts ss => exact Stmt.continuesList fuel ss
  | arms as => exact Arm.continuesChoose fuel as
  | rounds condition body => exact Stmt.continuesRepeat fuel condition body
  | members ds before => exact Definition.continuesMembers fuel ds before
  | program p => exact p.continues fuel

end Job

structure Evaluation where
  fuel : Nat
  job : Job
  machine : Machine

namespace Evaluation

def outcome (x : Evaluation) : Except Stop x.job.Result × Machine :=
  (x.job.run x.fuel).run x.machine

theorem continues (x : Evaluation) : x.machine.Continues x.outcome.2 :=
  (x.job.continues x.fuel).later x.machine

theorem current_eq {x : Evaluation} {a : Except Stop x.job.Result} {m : Machine}
    (h : x.outcome = (a, m)) : m.current = x.machine.current := by
  have hx := x.continues.current
  rwa [h] at hx

/-- An evaluation, followed by others if it ends with a result. -/
def andThen (x : Evaluation) (next : x.job.Result → Machine → List Evaluation) :
    List Evaluation :=
  x ::
    match x.outcome with
    | (.ok a, m) => next a m
    | (.error _, _) => []

theorem mem_andThen {x y : Evaluation} {next : x.job.Result → Machine → List Evaluation} :
    y ∈ x.andThen next ↔ y = x ∨ ∃ a m, x.outcome = (.ok a, m) ∧ y ∈ next a m := by
  rw [andThen]
  rcases x.outcome with ⟨stop | a, m⟩
  · simp
  · simp only [List.mem_cons]
    constructor
    · rintro (rfl | hy)
      · exact .inl rfl
      · exact .inr ⟨a, m, rfl, hy⟩
    · rintro (rfl | ⟨_, _, ⟨⟩, hy⟩)
      · exact .inl rfl
      · exact .inr hy

end Evaluation

namespace Machine

/-- Binds a name in the current scope. -/
def define (m : Machine) (name : String) (value : Value) : Machine :=
  { m with store := m.store.define m.current name value }

/-- Goes into a new scope inside a given one. -/
def enter (m : Machine) (outer : ScopeId) (bindings : List (String × Value)) : Machine :=
  let (store, scope) := m.store.enterScope outer
  { m with
    store := { store with scopes := store.scopes.defineAll scope bindings }
    current := scope }

/-- Makes a holder of a type. -/
def addHolder (m : Machine) : Machine := { m with store := m.store.addHolder.1 }

/-- Makes an operation in which `self` is bound to a value. -/
def bindSelf (m : Machine) (method : Closure) (value : Value) : Machine :=
  { m with store := (m.store.bindSelf method value).1 }

end Machine

/-- A method after `self` has been bound for it. -/
def Closure.bound (method : Closure) (m : Machine) : Closure :=
  { method with scope := m.store.scopes.size }

theorem Store.closures_bindSelf (s : Store) (method : Closure) (value : Value) :
    (s.bindSelf method value).1.closures[(s.bindSelf method value).2]? =
      some { method with scope := s.scopes.size } := by
  simp [Store.bindSelf, Store.addClosure, Store.define, Store.enterScope, Scopes.enter]

/-- Calling a type makes a holder. If the type has a pilot, this runs bound to the holder. -/
theorem Value.call_type_run (fuel : Nat) (t : TypeRef) (args : List Value) (m : Machine) :
    ((Value.type t).call (fuel + 1) args).run m =
      let made := Value.holder t m.store.holders.size
      match m.store.pilot? t with
      | .none => (.ok made, m.addHolder)
      | some pilot =>
        match m.store.closures[pilot]? with
        | .none => (.error .fault, m.addHolder)
        | some method =>
          ((method.bound m).call fuel args >>= fun _ => pure made).run
            (m.addHolder.bindSelf method made) := by
  -- a new holder changes nothing about types
  have hpilot : m.addHolder.store.pilot? t = m.store.pilot? t := by cases t <;> rfl
  rw [Value.call, run_bind_eq]
  change (Run.store >>= _).run m.addHolder = _
  rw [run_bind_eq, Run.run_store]
  dsimp only
  rw [hpilot]
  cases m.store.pilot? t with
  | none => rfl
  | some pilot =>
    change (Run.found m.store.closures[pilot]? >>= _).run m.addHolder = _
    cases hmethod : m.store.closures[pilot]? with
    | none =>
      simp only [hmethod]
      rfl
    | some method =>
      have hbound := m.addHolder.store.closures_bindSelf method (.holder t m.store.holders.size)
      simp only [hmethod]
      change (Run.found (m.addHolder.store.bindSelf method
          (.holder t m.store.holders.size)).1.closures[(m.addHolder.store.bindSelf method
          (.holder t m.store.holders.size)).2]? >>= _).run (m.addHolder.bindSelf method _) = _
      rw [hbound]
      rfl

/-- What the parts of a job are evaluated with: the fuel that is left to them and the machine the
job begins on. -/
def Job.parts (fuel : Nat) (m : Machine) : Job → List Evaluation
  | .expr (.assign _ value _) => [⟨fuel, .expr value, m⟩]
  | .expr (.unary _ right) => [⟨fuel, .expr right, m⟩]
  | .expr (.binary left _ right) =>
    Evaluation.andThen ⟨fuel, .expr left, m⟩ fun _ m => [⟨fuel, .expr right, m⟩]
  | .expr (.logical left operator right) =>
    Evaluation.andThen ⟨fuel, .expr left, m⟩ fun left m =>
      if Value.isTruthy left = (operator.kind == .operator .or) then []
      else [⟨fuel, .expr right, m⟩]
  | .expr (.count _ target _ _) => [⟨fuel, .expr target, m⟩]
  | .expr (.call callee _ args) =>
    Evaluation.andThen ⟨fuel, .expr callee, m⟩ fun callee m =>
      Evaluation.andThen ⟨fuel, .exprs args, m⟩ fun args m =>
        if m.store.arity? callee = some (List.length args) then
          [⟨fuel, .invocation callee args, m⟩]
        else []
  | .expr (.group _ inner) => [⟨fuel, .expr inner, m⟩]
  | .expr (.get object _) => [⟨fuel, .expr object, m⟩]
  | .expr (.set object _ value) =>
    Evaluation.andThen ⟨fuel, .expr value, m⟩ fun _ m => [⟨fuel, .expr object, m⟩]
  | .expr _ => []
  | .exprs [] => []
  | .exprs (e :: es) =>
    Evaluation.andThen ⟨fuel, .expr e, m⟩ fun _ m => [⟨fuel, .exprs es, m⟩]
  | .optional none => []
  | .optional (some e) => [⟨fuel, .expr e, m⟩]
  | .invocation (.operation id) args =>
    m.store.closures[id]?.toList.map fun closure => ⟨fuel, .application closure args, m⟩
  | .invocation (.type t) args =>
    ((m.store.pilot? t).bind (m.store.closures[·]?)).toList.map fun method =>
      ⟨fuel, .application (method.bound m) args,
        m.addHolder.bindSelf method (.holder t m.store.holders.size)⟩
  | .invocation .. => []
  | .application closure args =>
    [⟨fuel, .stmts closure.declaration.body,
      m.enter closure.scope ((closure.declaration.params.map (·.text)).zip args)⟩]
  | .stmt (.expression _ value) => [⟨fuel, .expr value, m⟩]
  | .stmt (.print _ value) => [⟨fuel, .expr value, m⟩]
  | .stmt (.define d) => [⟨fuel, .optional d.initial, m⟩]
  | .stmt (.block _ body) => [⟨fuel, .stmts body, m.enter m.current []⟩]
  | .stmt (.conditional _ condition branch as otherwise) =>
    Evaluation.andThen ⟨fuel, .expr condition, m⟩ fun value m =>
      if Value.isTruthy value then [⟨fuel, .stmt branch, m⟩]
      else Evaluation.andThen ⟨fuel, .arms as, m⟩ fun chosen m =>
        (Option.or chosen otherwise).toList.map fun s => ⟨fuel, .stmt s, m⟩
  | .stmt (.loop _ condition body) => [⟨fuel, .rounds condition body, m⟩]
  | .stmt (.return _ value) => [⟨fuel, .optional value, m⟩]
  | .stmt (.form _ name ds) =>
    [⟨fuel, .members ds .empty, m.define name.text .none⟩]
  | .stmt _ => []
  | .stmts [] => []
  | .stmts (s :: ss) =>
    Evaluation.andThen ⟨fuel, .stmt s, m⟩ fun
      | .normal, m => [⟨fuel, .stmts ss, m⟩]
      | .returned _, _ => []
  | .arms [] => []
  | .arms (a :: rest) =>
    -- the conditions after one that holds are evaluated as well
    Evaluation.andThen ⟨fuel, .expr a.condition, m⟩ fun _ m => [⟨fuel, .arms rest, m⟩]
  | .rounds condition body =>
    Evaluation.andThen ⟨fuel, .expr condition, m⟩ fun value m =>
      if Value.isTruthy value then
        Evaluation.andThen ⟨fuel, .stmt body, m⟩ fun
          | .normal, m => [⟨fuel, .rounds condition body, m⟩]
          | .returned _, _ => []
      else []
  | .members [] _ => []
  | .members (d :: rest) before =>
    Evaluation.andThen ⟨fuel, .optional d.initial, m⟩ fun value m =>
      [⟨fuel, .members rest (before.insert d.name.text value), m.define d.name.text value⟩]
  | .program _ => []

/-- The statements of a program all have the fuel of the program; anything else leaves less to its
parts. -/
def Evaluation.parts : Evaluation → List Evaluation
  | ⟨_, .program [], _⟩ => []
  | ⟨fuel, .program (s :: rest), m⟩ =>
    Evaluation.andThen ⟨fuel, .stmt s, m⟩ fun _ m => [⟨fuel, .program rest, m⟩]
  | ⟨0, _, _⟩ => []
  | ⟨fuel + 1, t, m⟩ => t.parts fuel m

end Treescript
