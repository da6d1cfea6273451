import Treescript.Proofs.StrictFailures

/-!
# Answers in one channel

Evaluation with a single kind of answer. Values, failures and returned values all come back the same
way, and whoever asked has to look at the answer before going on with it: using anything but a value
as data is a fault. This evaluation does the same as the one that programs are run with, so that the
checks it makes are all the checks there have to be.
-/

namespace Treescript

/-- What evaluating a node hands back. A statement that ends normally hands back nothing. -/
inductive Answer where
  | nothing
  | value (v : Value)
  | returned (v : Value)
  | failed (f : Failure)

namespace Answer

def isFailed : Answer → Bool
  | failed _ => true
  | _ => false

/-- Whether an answer ends the statements around it. -/
def isSignal : Answer → Bool
  | returned _ | failed _ => true
  | nothing | value _ => false

/-- The answer as data. -/
def datum : Answer → Run Value
  | value v => pure v
  | nothing | returned _ | failed _ => throw .fault

def locatedAt (token : Token) : Answer → Answer
  | failed f => failed (f.locatedAt token)
  | a => a

end Answer

def Completion.answer : Completion → Answer
  | .normal => .nothing
  | .returned v => .returned v

/-- Answers with the result of a run, or with its failure. -/
def Run.answer (run : Run Value) : Run Answer :=
  tryCatch (Answer.value <$> run) fun
    | .failure f => return .failed f
    | stop => throw stop

mutual

def Expr.answer : Nat → Expr → Run Answer
  | 0, _ => throw .outOfFuel
  | _ + 1, .hole => throw .fault
  | _ + 1, .literal _ value => return .value (.ofLiteral value)
  | _ + 1, .variable name hops => Run.answer (Run.lookup name name.text hops)
  | fuel + 1, .assign name value hops => do
    let value ← value.answer fuel
    if value.isFailed then return value
    let value ← value.datum
    Run.answer (Run.assign name hops value)
  | fuel + 1, .unary operator right => do
    let right ← right.answer fuel
    if right.isFailed then return right
    let right ← right.datum
    Run.answer (Run.operator operator (Operator.prefixed operator right))
  | fuel + 1, .binary left operator right => do
    let left ← left.answer fuel
    if left.isFailed then return left
    let left ← left.datum
    let right ← right.answer fuel
    if right.isFailed then return right
    let right ← right.datum
    let store ← Run.store
    Run.answer (Run.operator operator (Operator.between store operator left right))
  | fuel + 1, .logical left operator right => do
    let left ← left.answer fuel
    if left.isFailed then return left
    let value ← left.datum
    if value.isTruthy = (operator.kind == .operator .or) then return left
    right.answer fuel
  | fuel + 1, .count operator target name hops => do
    let current ← target.answer fuel
    if current.isFailed then return current
    let current ← current.datum
    let updated ← Run.answer (Run.operator operator (Operator.counted operator current))
    if updated.isFailed then return updated
    let updated ← updated.datum
    Run.answer (Run.assign name hops updated)
  | fuel + 1, .call callee paren args => do
    let callee ← callee.answer fuel
    if callee.isFailed then return callee
    let callee ← callee.datum
    match ← Expr.answerList fuel args with
    | .error signal => return signal
    | .ok args => do
      let store ← Run.store
      match store.arity? callee with
      | none => return .failed ⟨paren, .notCallable callee.kind, some args⟩
      | some arity =>
        if args.length ≠ arity then return .failed ⟨paren, .arity arity args.length, some args⟩
        else return (← callee.answerCall fuel args).locatedAt paren
  | fuel + 1, .group _ inner => inner.answer fuel
  | _ + 1, .self keyword hops => Run.answer (Run.lookup keyword selfName hops)
  | fuel + 1, .get object name => do
    let target ← object.answer fuel
    if target.isFailed then return target
    match ← target.datum with
    | .holder of id => Run.answer (Run.getProperty of id name)
    | target => return .failed ⟨name, .noProperties target.kind, none⟩
  | fuel + 1, .set object name value => do
    let value ← value.answer fuel
    if value.isFailed then return value
    let value ← value.datum
    let target ← object.answer fuel
    if target.isFailed then return target
    match ← target.datum with
    | .holder _ id => do
      Run.setProperty id name value
      return .value value
    | target => return .failed ⟨name, .noFields target.kind, none⟩
  | _ + 1, .parent name => do
    let m ← get
    match m.store.scopes.outer? m.current with
    | none => return .failed ⟨name, .noEnclosingScope name.text, none⟩
    | some outer =>
      match m.store.scopes.resolve? outer name.text with
      | some value => return .value value
      | none => return .failed ⟨name, .undefinedVariable name.text, none⟩
  | _ + 1, .global name => do
    let m ← get
    match m.store.scopes.get? m.globals name.text with
    | some value => return .value value
    | none => return .failed ⟨name, .undefinedGlobal name.text, none⟩

/-- The values of expressions from left to right, up to the first failure. -/
def Expr.answerList : Nat → List Expr → Run (Except Answer (List Value))
  | 0, _ => throw .outOfFuel
  | _ + 1, [] => return .ok []
  | fuel + 1, e :: es => do
    let value ← e.answer fuel
    if value.isFailed then return .error value
    let value ← value.datum
    match ← Expr.answerList fuel es with
    | .error signal => return .error signal
    | .ok values => return .ok (value :: values)

def Value.answerCall : Nat → Value → List Value → Run Answer
  | 0, _, _ => throw .outOfFuel
  | fuel + 1, .operation id, args => do
    let closure ← Run.found (← Run.store).closures[id]?
    closure.answerCall fuel args
  | _ + 1, .native n, args => do
    let time ← if n = .clock then Run.now else pure 0
    match ← Run.found (n.apply (← Run.store) time (args.map .value)) with
    | .ok value => return .value value
    | .error cause => return .failed ⟨.blank, cause, none⟩
  | fuel + 1, .type t, args => do
    let instance_ := Value.holder t (← Run.onStore (·.addHolder))
    match (← Run.store).pilot? t with
    | none => return .value instance_
    | some pilot => do
      let closure ← Run.found (← Run.store).closures[pilot]?
      let bound ← Run.onStore (·.bindSelf closure instance_)
      let closure ← Run.found (← Run.store).closures[bound]?
      let result ← closure.answerCall fuel args
      if result.isFailed then return result
      return .value instance_
  | _ + 1, _, _ => throw .fault

/-- Runs an operation. Only here a returned value becomes a value again. -/
def Closure.answerCall : Nat → Closure → List Value → Run Answer
  | 0, _, _ => throw .outOfFuel
  | fuel + 1, closure, args => do
    let scope ← Run.enterCall closure args
    let evaluated ← Run.within scope (Stmt.answerList fuel closure.declaration.body)
    if evaluated.isFailed then return evaluated
    let self? := (← Run.store).scopes.get? closure.scope selfName
    match closure.isPilot, self?, evaluated with
    | true, some self, _ => return .value self
    | _, _, .returned value => return .value value
    | _, _, _ => return .value .none

def Stmt.answer : Nat → Stmt → Run Answer
  | 0, _ => throw .outOfFuel
  | _ + 1, .hole => throw .fault
  | fuel + 1, .expression _ value => do
    let value ← value.answer fuel
    if value.isFailed then return value
    return .nothing
  | fuel + 1, .print _ value => do
    let value ← value.answer fuel
    if value.isFailed then return value
    let value ← value.datum
    Run.print ((← Run.store).display value)
    return .nothing
  | fuel + 1, .define ⟨_, name, initial⟩ => do
    let value ← Expr.answerOptional fuel initial
    if value.isFailed then return value
    let value ← value.datum
    Run.define name.text value
    return .nothing
  | fuel + 1, .block _ body => do
    let current := (← get).current
    let scope ← Run.onStore (·.enterScope current)
    Run.within scope (Stmt.answerList fuel body)
  | _ + 1, .operation declaration => do
    let scope := (← get).current
    let id ← Run.onStore (·.addClosure ⟨declaration, scope, false⟩)
    Run.define declaration.name.text (.operation id)
    return .nothing
  | fuel + 1, .conditional _ condition branch arms otherwise => do
    let value ← condition.answer fuel
    if value.isFailed then return value
    let value ← value.datum
    if value.isTruthy then branch.answer fuel
    else
      match ← Arm.answerChoose fuel arms, otherwise with
      | .error signal, _ => return signal
      | .ok (some chosen), _ => chosen.answer fuel
      | .ok none, some branch => branch.answer fuel
      | .ok none, none => return .nothing
  | _ + 1, .arm a => return .failed ⟨a.token, .strayArm, none⟩
  | fuel + 1, .loop _ condition body => Stmt.answerRepeat fuel condition body
  | fuel + 1, .return _ value => do
    let value ← Expr.answerOptional fuel value
    if value.isFailed then return value
    let value ← value.datum
    return .returned value
  | _ + 1, .object _ name methods => do
    Run.declareObject name methods
    return .nothing
  | _ + 1, .enum _ name elements => do
    Run.declareEnum name elements
    return .nothing
  | fuel + 1, .form _ name members => do
    Run.define name.text .none
    match ← Definition.answerMembers fuel members .empty with
    | .error signal => return signal
    | .ok members => do
      Run.declareForm name members
      return .nothing

def Expr.answerOptional : Nat → Option Expr → Run Answer
  | 0, _ => throw .outOfFuel
  | _ + 1, none => return .value .none
  | fuel + 1, some e => e.answer fuel

/-- Runs statements up to the first that hands back a signal. -/
def Stmt.answerList : Nat → List Stmt → Run Answer
  | 0, _ => throw .outOfFuel
  | _ + 1, [] => return .nothing
  | fuel + 1, s :: ss => do
    let result ← s.answer fuel
    if result.isSignal then return result
    Stmt.answerList fuel ss

def Arm.answerChoose : Nat → List Arm → Run (Except Answer (Option Stmt))
  | 0, _ => throw .outOfFuel
  | _ + 1, [] => return .ok none
  | fuel + 1, ⟨_, condition, branch⟩ :: rest => do
    let value ← condition.answer fuel
    if value.isFailed then return .error value
    let value ← value.datum
    match ← Arm.answerChoose fuel rest with
    | .error signal => return .error signal
    | .ok later =>
      match value.isTruthy, branch with
      | true, .hole => return .ok later
      | true, branch => return .ok (some branch)
      | false, _ => return .ok later

def Stmt.answerRepeat : Nat → Expr → Stmt → Run Answer
  | 0, _, _ => throw .outOfFuel
  | fuel + 1, condition, body => do
    let value ← condition.answer fuel
    if value.isFailed then return value
    let value ← value.datum
    if value.isTruthy then
      let result ← body.answer fuel
      if result.isSignal then return result
      Stmt.answerRepeat fuel condition body
    else return .nothing

def Definition.answerMembers :
    Nat → List Definition → NameMap Value → Run (Except Answer (NameMap Value))
  | 0, _, _ => throw .outOfFuel
  | _ + 1, [], members => return .ok members
  | fuel + 1, ⟨_, name, initial⟩ :: rest, members => do
    let value ← Expr.answerOptional fuel initial
    if value.isFailed then return .error value
    let value ← value.datum
    Run.define name.text value
    Definition.answerMembers fuel rest (members.insert name.text value)

end

/-- Runs the statements of a program up to the first failure. -/
def Program.answer (fuel : Nat) : Program → Run Answer
  | [] => return .nothing
  | s :: rest => do
    let result ← s.answer fuel
    if result.isFailed then return result
    Program.answer fuel rest

/-- The second run does what the first does, and answers where the first fails. -/
def Run.Answers {α β : Type} (result : α → β) (failed : Failure → β) (run : Run α) (run' : Run β) :
    Prop :=
  ∀ m, run'.run m =
    match run.run m with
    | (.ok a, m') => (.ok (result a), m')
    | (.error (.failure f), m') => (.ok (failed f), m')
    | (.error stop, m') => (.error stop, m')

namespace Run.Answers

variable {α β γ δ : Type} {result : α → β} {failed : Failure → β} {run : Run α} {run' : Run β}
  {next : γ → δ} {failed' : Failure → δ}

theorem done (a : α) : Run.Answers result failed (Pure.pure a) (Pure.pure (result a)) :=
  fun _ => rfl

theorem fault : Run.Answers result failed (throw .fault) (throw .fault) := fun _ => rfl

theorem outOfFuel : Run.Answers result failed (throw .outOfFuel) (throw .outOfFuel) := fun _ => rfl

theorem fail (f : Failure) :
    Run.Answers result failed (throw (.failure f)) (Pure.pure (failed f)) := fun _ => rfl

theorem answer (run : Run Value) : Run.Answers Answer.value Answer.failed run run.answer := by
  intro m
  rw [Run.answer, run_tryCatch_eq, map_eq_pure_bind, run_bind_eq]
  rcases run.run m with ⟨(f | _ | _) | v, m'⟩ <;> rfl

theorem bind (h : Run.Answers result failed run run') {k : α → Run γ} {k' : β → Run δ}
    (hk : ∀ a, Run.Answers next failed' (k a) (k' (result a)))
    (hf : ∀ f, k' (failed f) = Pure.pure (failed' f)) :
    Run.Answers next failed' (run >>= k) (run' >>= k') := by
  intro m
  rw [run_bind_eq, run_bind_eq, h m]
  rcases run.run m with ⟨(f | _ | _) | a, m'⟩
  · exact congrArg (fun r : Run δ => r.run m') (hf f)
  · rfl
  · rfl
  · exact hk a m'

/-- An answer that is looked at before it is used as data. -/
theorem checked {run : Run Value} {run' : Run Answer}
    (h : Run.Answers Answer.value Answer.failed run run') {k : Value → Run γ} {signal : Answer → δ}
    {k' : Answer → Value → Run δ} (hk : ∀ v, Run.Answers next failed' (k v) (k' (.value v) v))
    (hf : ∀ f, signal (.failed f) = failed' f) :
    Run.Answers next failed' (run >>= k) (run' >>= fun a =>
      if a.isFailed = true then Pure.pure (signal a) else a.datum >>= k' a) := by
  refine h.bind hk fun f => ?_
  rw [← hf f]
  rfl

/-- A step that never fails is the same in both runs. -/
theorem step {prim : Run β} (hprim : Run.FailsAt [] prim) {k : β → Run γ} {k' : β → Run δ}
    (hk : ∀ b, Run.Answers next failed' (k b) (k' b)) :
    Run.Answers next failed' (prim >>= k) (prim >>= k') := by
  intro m
  rw [run_bind_eq, run_bind_eq]
  rcases hrun : prim.run m with ⟨(f | _ | _) | b, m'⟩
  · exact absurd (hprim m f m' hrun).1 List.not_mem_nil
  · rfl
  · rfl
  · exact hk b m'

theorem within (scope : ScopeId) (h : Run.Answers result failed run run') :
    Run.Answers result failed (Run.within scope run) (Run.within scope run') := by
  intro m
  have hm := h { m with current := scope }
  simp only [Run.within, ExceptT.run_mk, hm]
  rcases run.run { m with current := scope } with ⟨(f | _ | _) | a, m'⟩ <;> rfl

theorem locating (token : Token) {run : Run Value} {run' : Run Answer}
    (h : Run.Answers Answer.value Answer.failed run run') :
    Run.Answers Answer.value Answer.failed (Run.locating token run) (do
      return (← run').locatedAt token) := by
  intro m
  rw [Run.locating_run, run_bind_eq, h m]
  rcases run.run m with ⟨(f | _ | _) | a, m'⟩ <;> rfl

end Run.Answers

open Run.Answers

mutual

theorem Expr.answers (fuel : Nat) (e : Expr) :
    Run.Answers Answer.value Answer.failed (e.eval fuel) (e.answer fuel) := by
  match fuel, e with
  | 0, _ => exact outOfFuel
  | fuel + 1, .hole => exact fault
  | fuel + 1, .literal _ value => exact done _
  | fuel + 1, .variable .. | fuel + 1, .self .. => exact answer _
  | fuel + 1, .assign _ value _ =>
    exact (Expr.answers fuel value).checked (fun _ => answer _) fun _ => rfl
  | fuel + 1, .unary _ right =>
    exact (Expr.answers fuel right).checked (fun _ => answer _) fun _ => rfl
  | fuel + 1, .binary left _ right =>
    refine (Expr.answers fuel left).checked (fun _ => ?_) fun _ => rfl
    refine (Expr.answers fuel right).checked (fun _ => ?_) fun _ => rfl
    exact step .store fun _ => answer _
  | fuel + 1, .logical left operator right =>
    refine (Expr.answers fuel left).checked (fun v => ?_) fun _ => rfl
    by_cases h : v.isTruthy = (operator.kind == .operator .or)
    · rw [if_pos h, if_pos h]
      exact done v
    · rw [if_neg h, if_neg h]
      exact Expr.answers fuel right
  | fuel + 1, .count _ target _ _ =>
    refine (Expr.answers fuel target).checked (fun _ => ?_) fun _ => rfl
    exact (answer _).checked (fun _ => answer _) fun _ => rfl
  | fuel + 1, .call callee paren args =>
    refine (Expr.answers fuel callee).checked (fun callee => ?_) fun _ => rfl
    refine (Expr.answersList fuel args).bind (fun args => ?_) fun _ => rfl
    refine step .store fun store => ?_
    cases store.arity? callee with
    | none => exact fail _
    | some arity =>
      dsimp only
      by_cases h : args.length ≠ arity
      · rw [if_pos h, if_pos h]
        exact fail _
      · rw [if_neg h, if_neg h]
        exact (Value.answers fuel callee args).locating paren
  | fuel + 1, .group _ inner => exact Expr.answers fuel inner
  | fuel + 1, .get object name =>
    refine (Expr.answers fuel object).checked (fun target => ?_) fun _ => rfl
    cases target with
    | holder of id => exact answer _
    | _ => exact fail _
  | fuel + 1, .set object name value =>
    refine (Expr.answers fuel value).checked (fun v => ?_) fun _ => rfl
    refine (Expr.answers fuel object).checked (fun target => ?_) fun _ => rfl
    cases target with
    | holder of id => exact step (.modify _) fun _ => done v
    | _ => exact fail _
  | fuel + 1, .parent name =>
    refine step .get fun m => ?_
    cases m.store.scopes.outer? m.current with
    | none => exact fail _
    | some outer =>
      dsimp only
      cases m.store.scopes.resolve? outer name.text with
      | none => exact fail _
      | some v => exact done v
  | fuel + 1, .global name =>
    refine step .get fun m => ?_
    cases m.store.scopes.get? m.globals name.text with
    | none => exact fail _
    | some v => exact done v

theorem Expr.answersList (fuel : Nat) (es : List Expr) :
    Run.Answers (Except.ok (ε := Answer)) (fun f => .error (.failed f)) (Expr.evalList fuel es)
      (Expr.answerList fuel es) := by
  match fuel, es with
  | 0, _ => exact outOfFuel
  | fuel + 1, [] => exact done _
  | fuel + 1, e :: es =>
    refine (Expr.answers fuel e).checked (fun v => ?_) fun _ => rfl
    exact (Expr.answersList fuel es).bind (fun vs => done (v :: vs)) fun _ => rfl

theorem Value.answers (fuel : Nat) (callee : Value) (args : List Value) :
    Run.Answers Answer.value Answer.failed (callee.call fuel args)
      (callee.answerCall fuel args) := by
  match fuel, callee with
  | 0, _ => exact outOfFuel
  | fuel + 1, .operation id =>
    exact step .store fun _ => step (.found _) fun closure => Closure.answers fuel closure args
  | fuel + 1, .native n =>
    have hrest : ∀ time : Float, Run.Answers Answer.value Answer.failed (do
        match ← Run.found (n.apply (← Run.store) time (args.map .value)) with
        | .ok value => return value
        | .error cause => Run.fail .blank cause) (do
        match ← Run.found (n.apply (← Run.store) time (args.map .value)) with
        | .ok value => return .value value
        | .error cause => return .failed ⟨.blank, cause, none⟩) := by
      refine fun time => step .store fun _ => step (.found _) fun result => ?_
      cases result with
      | ok v => exact done v
      | error cause => exact fail _
    rw [Value.call, Value.answerCall]
    split
    · exact step .now hrest
    · exact hrest 0
  | fuel + 1, .type t =>
    refine step (.onStore _) fun holder => step .store fun store => ?_
    cases store.pilot? t with
    | none => exact done _
    | some pilot =>
      refine step .store fun _ => step (.found _) fun closure => ?_
      refine step (.onStore _) fun bound => step .store fun _ => step (.found _) fun closure => ?_
      exact (Closure.answers fuel closure args).bind (fun _ => done _) fun _ => rfl
  | _ + 1, .none | _ + 1, .bool _ | _ + 1, .int _ | _ + 1, .float _ | _ + 1, .text _
  | _ + 1, .holder .. => exact fault

theorem Closure.answers (fuel : Nat) (closure : Closure) (args : List Value) :
    Run.Answers Answer.value Answer.failed (closure.call fuel args)
      (closure.answerCall fuel args) := by
  match fuel with
  | 0 => exact outOfFuel
  | fuel + 1 =>
    refine step (.onStore _) fun scope => ?_
    refine ((Stmt.answersList fuel closure.declaration.body).within scope).bind
      (fun completion => ?_) fun _ => rfl
    cases completion with
    | normal =>
      refine step .store fun store => ?_
      cases closure.isPilot <;> cases store.scopes.get? closure.scope selfName <;> exact done _
    | returned v =>
      refine step .store fun store => ?_
      cases closure.isPilot <;> cases store.scopes.get? closure.scope selfName <;> exact done _

theorem Stmt.answers (fuel : Nat) (s : Stmt) :
    Run.Answers Completion.answer Answer.failed (s.exec fuel) (s.answer fuel) := by
  match fuel, s with
  | 0, _ => exact outOfFuel
  | fuel + 1, .hole => exact fault
  | fuel + 1, .expression _ value =>
    exact (Expr.answers fuel value).bind (fun _ => done Completion.normal) fun _ => rfl
  | fuel + 1, .print _ value =>
    refine (Expr.answers fuel value).checked (fun v => ?_) fun _ => rfl
    exact step .store fun _ => step (.modify _) fun _ => done Completion.normal
  | fuel + 1, .define ⟨_, name, initial⟩ =>
    refine (Expr.answersOptional fuel initial).checked (fun v => ?_) fun _ => rfl
    exact step (.modify _) fun _ => done Completion.normal
  | fuel + 1, .block _ body =>
    refine step .get fun _ => step (.onStore _) fun scope => ?_
    exact (Stmt.answersList fuel body).within scope
  | fuel + 1, .operation declaration =>
    exact step .get fun _ => step (.onStore _) fun _ => step (.modify _) fun _ =>
      done Completion.normal
  | fuel + 1, .conditional _ condition branch arms otherwise =>
    refine (Expr.answers fuel condition).checked (fun v => ?_) fun _ => rfl
    by_cases h : v.isTruthy = true
    · rw [if_pos h, if_pos h]
      exact Stmt.answers fuel branch
    · rw [if_neg h, if_neg h]
      refine (Arm.answersChoose fuel arms).bind (fun chosen => ?_) fun _ => rfl
      match chosen, otherwise with
      | some chosen, _ => exact Stmt.answers fuel chosen
      | none, some last => exact Stmt.answers fuel last
      | none, none => exact done Completion.normal
  | fuel + 1, .arm a => exact fail _
  | fuel + 1, .loop _ condition body => exact Stmt.answersRepeat fuel condition body
  | fuel + 1, .return _ value =>
    refine (Expr.answersOptional fuel value).checked (fun v => ?_) fun _ => rfl
    exact done (Completion.returned v)
  | fuel + 1, .object _ name methods =>
    exact step (.declareObject _ _) fun _ => done Completion.normal
  | fuel + 1, .enum _ name elements => exact step (.declareEnum _ _) fun _ => done Completion.normal
  | fuel + 1, .form _ name members =>
    refine step (.modify _) fun _ => ?_
    refine (Definition.answersMembers fuel members .empty).bind (fun vs => ?_) fun _ => rfl
    exact step (.declareForm _ _) fun _ => done Completion.normal

theorem Expr.answersOptional (fuel : Nat) (e? : Option Expr) :
    Run.Answers Answer.value Answer.failed (Expr.evalOptional fuel e?)
      (Expr.answerOptional fuel e?) := by
  match fuel, e? with
  | 0, _ => exact outOfFuel
  | fuel + 1, none => exact done _
  | fuel + 1, some e => exact Expr.answers fuel e

theorem Stmt.answersList (fuel : Nat) (ss : List Stmt) :
    Run.Answers Completion.answer Answer.failed (Stmt.execList fuel ss)
      (Stmt.answerList fuel ss) := by
  match fuel, ss with
  | 0, _ => exact outOfFuel
  | fuel + 1, [] => exact done Completion.normal
  | fuel + 1, s :: ss =>
    refine (Stmt.answers fuel s).bind (fun completion => ?_) fun _ => rfl
    cases completion with
    | normal => exact Stmt.answersList fuel ss
    | returned v => exact done (Completion.returned v)

theorem Arm.answersChoose (fuel : Nat) (arms : List Arm) :
    Run.Answers (Except.ok (ε := Answer)) (fun f => .error (.failed f)) (Arm.choose fuel arms)
      (Arm.answerChoose fuel arms) := by
  match fuel, arms with
  | 0, _ => exact outOfFuel
  | fuel + 1, [] => exact done none
  | fuel + 1, ⟨_, condition, branch⟩ :: rest =>
    refine (Expr.answers fuel condition).checked (fun v => ?_) fun _ => rfl
    refine (Arm.answersChoose fuel rest).bind (fun later => ?_) fun _ => rfl
    dsimp only
    cases v.isTruthy with
    | false => exact done later
    | true => cases branch <;> exact done _

theorem Stmt.answersRepeat (fuel : Nat) (condition : Expr) (body : Stmt) :
    Run.Answers Completion.answer Answer.failed (Stmt.repeat fuel condition body)
      (Stmt.answerRepeat fuel condition body) := by
  match fuel with
  | 0 => exact outOfFuel
  | fuel + 1 =>
    refine (Expr.answers fuel condition).checked (fun v => ?_) fun _ => rfl
    by_cases h : v.isTruthy = true
    · rw [if_pos h, if_pos h]
      refine (Stmt.answers fuel body).bind (fun completion => ?_) fun _ => rfl
      cases completion with
      | normal => exact Stmt.answersRepeat fuel condition body
      | returned v => exact done (Completion.returned v)
    · rw [if_neg h, if_neg h]
      exact done Completion.normal

theorem Definition.answersMembers (fuel : Nat) (ds : List Definition) (members : NameMap Value) :
    Run.Answers (Except.ok (ε := Answer)) (fun f => .error (.failed f))
      (Definition.evalMembers fuel ds members) (Definition.answerMembers fuel ds members) := by
  match fuel, ds with
  | 0, _ => exact outOfFuel
  | fuel + 1, [] => exact done members
  | fuel + 1, ⟨_, name, initial⟩ :: rest =>
    refine (Expr.answersOptional fuel initial).checked (fun v => ?_) fun _ => rfl
    exact step (.modify _) fun _ => Definition.answersMembers fuel rest _

end

theorem Program.answers (fuel : Nat) (p : Program) :
    Run.Answers (fun _ => Answer.nothing) Answer.failed (p.run fuel) (p.answer fuel) := by
  induction p with
  | nil => exact done ()
  | cons s rest ih =>
    refine (Stmt.answers fuel s).bind (fun completion => ?_) fun _ => rfl
    cases completion with
    | normal => exact ih
    | returned v => exact ih

end Treescript
