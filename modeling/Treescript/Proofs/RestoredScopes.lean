import Treescript.Proofs.Evaluations

/-!
# The current scope is put back

Blocks, calls and pilots go into scopes of their own, and a return or a failure can leave them from
any depth. Whatever way an evaluation ends, the machine is then back in the scope in which the
evaluation began. So a session is in the global scope whenever no program of it is running.
-/

namespace Treescript

/-- What a host does with a session. Programs may run with any fuel. -/
inductive Session.Step : Session → Session → Prop
  | interpret (s : Session) (fuel : Nat) (p : Program) : Step s ⟨(s.machine.interpret fuel p).2⟩
  | evaluate (s : Session) (e : Expr) : Step s (s.evaluate e).2
  | runBlock (s : Session) (body : Program) (bindings : List (String × Value)) :
    Step s (s.runBlock body bindings).2.2
  | method {s s' : Session} {type key : String} {receiver : Option Value} {value : Value}
    (h : s.method type key receiver = .ok (value, s')) : Step s s'
  | call {s s' : Session} {callee : Option Value} {args : List Value} {result : Except Stop Value}
    (h : s.call callee args = .ok (result, s')) : Step s s'
  | property {s s' : Session} {name : String} {key : Token} {value : Option Value}
    {holder : Value} {result : Except Stop Value}
    (h : s.property name key value = some (holder, result, s')) : Step s s'
  | defineGlobal (s : Session) (name : String) (value : Value) :
    Step s (s.defineGlobal name value)
  | takeEvents (s : Session) : Step s s.takeEvents.2

/-- The session has been started and used any number of times. -/
def Session.Used (s : Session) : Prop :=
  ∃ clock entries, Relation.ReflTransGen Session.Step (Session.start clock entries) s

theorem Run.Continues.current_eq {α : Type} {run : Run α} (h : Run.Continues run) (m : Machine) :
    (run.run m).2.current = m.current :=
  (h.later m).current

/-- A machine that no program runs on stands in its global scope. -/
def Machine.Idle (m : Machine) : Prop := m.current = m.globals

namespace Machine.Idle

variable {m : Machine}

theorem of_continues {m' : Machine} (h : m.Idle) (hm : m.Continues m') : m'.Idle := by
  rw [Idle, hm.current, hm.globals]
  exact h

theorem interpret (h : m.Idle) (fuel : Nat) (p : Program) : (m.interpret fuel p).2.Idle := by
  have hrun := h.of_continues ((p.continues fuel).later m)
  rw [Machine.interpret]
  generalize (p.run fuel).run m = end_ at hrun
  obtain ⟨(f | _ | _) | _, m'⟩ := end_
  · rfl
  · exact hrun
  · exact hrun
  · exact hrun

end Machine.Idle

theorem Machine.globals_interpret (m : Machine) (fuel : Nat) (p : Program) :
    (m.interpret fuel p).2.globals = m.globals := by
  have hrun := ((p.continues fuel).later m).globals
  rw [Machine.interpret]
  generalize (p.run fuel).run m = end_ at hrun
  obtain ⟨(f | _ | _) | _, m'⟩ := end_ <;> exact hrun

namespace Session

theorem continues_run {α : Type} (s : Session) {r : Run α} (h : Run.Continues r) :
    s.machine.Continues (s.run r).2.machine := h.later s.machine

theorem idle_runBlock {s : Session} (h : s.machine.Idle) (body : Program)
    (bindings : List (String × Value)) : (s.runBlock body bindings).2.2.machine.Idle := by
  let scopes := (s.store.scopes.enter s.machine.globals).1
  let m := { s.machine with
    store := { s.store with scopes := scopes.defineAll s.store.scopes.size bindings } }
  have hm : m.Idle := h
  exact hm.of_continues (((Stmt.continuesList fuel body).within s.store.scopes.size).later m)

theorem idle_method {s s' : Session} {type key : String} {receiver : Option Value} {value : Value}
    (h : s.machine.Idle) (hs : s.method type key receiver = .ok (value, s')) : s'.machine.Idle := by
  rw [Session.method] at hs
  split at hs
  · split at hs
    · cases hs
    · split at hs
      · cases hs
        exact h
      · cases hs
        exact h
  · cases hs

theorem idle_call {s s' : Session} {callee : Option Value} {args : List Value}
    {result : Except Stop Value} (h : s.machine.Idle)
    (hs : s.call callee args = .ok (result, s')) : s'.machine.Idle := by
  rw [Session.call] at hs
  split at hs
  · cases hs
  · split at hs
    · cases hs
    · have hend : (s.run _).2 = s' := congrArg Prod.snd (Except.ok.inj hs)
      rw [← hend]
      exact h.of_continues (s.continues_run (Value.continuesCall ..))

theorem idle_property {s s' : Session} {name : String} {key : Token} {value : Option Value}
    {holder : Value} {result : Except Stop Value} (h : s.machine.Idle)
    (hs : s.property name key value = some (holder, result, s')) : s'.machine.Idle := by
  rw [Session.property] at hs
  split at hs
  · cases hs
    refine h.of_continues (s.continues_run ?_)
    cases value with
    | none => exact (Run.Continues.pure ()).bind fun _ => .getProperty ..
    | some v => exact (Run.Continues.setProperty ..).bind fun _ => .getProperty ..
  · cases hs

/-- Whatever the host does, the session is idle again afterwards. -/
theorem Step.idle {s s' : Session} (step : s.Step s') (h : s.machine.Idle) : s'.machine.Idle := by
  cases step with
  | interpret fuel p => exact h.interpret fuel p
  | evaluate e => exact h.of_continues (s.continues_run (e.continues fuel))
  | runBlock body bindings => exact idle_runBlock h body bindings
  | method hs => exact idle_method h hs
  | call hs => exact idle_call h hs
  | property hs => exact idle_property h hs
  | defineGlobal => exact h
  | takeEvents => exact h

theorem Used.idle {s : Session} (h : s.Used) : s.machine.Idle := by
  obtain ⟨clock, entries, steps⟩ := h
  induction steps with
  | refl => rfl
  | tail _ step ih => exact step.idle ih

end Session

/-- The current scope is always put back: after an expression, a statement, a block of statements in
any scope, and a call, whatever their results are and on whatever machine they began. Hence a
session is in its global scope when a program begins, and again when the program has ended, with or
without a failure. -/
theorem Machine.current_scope_put_back :
    (∀ (fuel : Nat) (e : Expr) (m : Machine), ((e.eval fuel).run m).2.current = m.current) ∧
    (∀ (fuel : Nat) (s : Stmt) (m : Machine), ((s.exec fuel).run m).2.current = m.current) ∧
    (∀ (fuel : Nat) (scope : ScopeId) (body : List Stmt) (m : Machine),
      ((Run.within scope (Stmt.execList fuel body)).run m).2.current = m.current) ∧
    (∀ (fuel : Nat) (callee : Value) (args : List Value) (m : Machine),
      ((callee.call fuel args).run m).2.current = m.current) ∧
    (∀ (fuel : Nat) (closure : Closure) (args : List Value) (m : Machine),
      ((closure.call fuel args).run m).2.current = m.current) ∧
    ∀ s : Session, s.Used → s.machine.current = s.machine.globals ∧
      ∀ (fuel : Nat) (p : Program), (s.machine.interpret fuel p).2.current = s.machine.globals ∧
        (s.machine.interpret fuel p).2.globals = s.machine.globals := by
  refine ⟨fun fuel e => (e.continues fuel).current_eq, fun fuel s => (s.continues fuel).current_eq,
    fun fuel scope body => ((Stmt.continuesList fuel body).within scope).current_eq,
    fun fuel callee args => (callee.continuesCall fuel args).current_eq,
    fun fuel closure args => (closure.continues fuel args).current_eq, fun s hs => ?_⟩
  refine ⟨hs.idle, fun fuel p => ?_⟩
  have hglobals := s.machine.globals_interpret fuel p
  have hidle : (s.machine.interpret fuel p).2.current = (s.machine.interpret fuel p).2.globals :=
    hs.idle.interpret fuel p
  exact ⟨hidle.trans hglobals, hglobals⟩

/-- A name without a binding is read two blocks deep, in the body of an operation. -/
def lostRead : Program :=
  let name (text : String) : Token := { Token.blank with kind := .identifier, text }
  [.operation ⟨.blank, name "f", [], [.block .blank [.print .blank (.variable (name "x") none)]]⟩,
    .block .blank [.expression .blank (.call (.variable (name "f") none) .blank [])]]

/-- The message of the failure that aborted a run. -/
def Ending.message? : Ending → Option String
  | .aborted a => some a.message
  | _ => none

theorem Machine.current_after_lost_read :
    let s := Session.start ⟨fun _ => 0, 0⟩ []
    let next : Session := ⟨(s.machine.interpret 12 lostRead).2⟩
    next.Used ∧
      (s.machine.interpret 12 lostRead).1.message? = some "Undefined variable 'x'." ∧
      next.machine.current = next.machine.globals ∧
        (next.machine.interpret 12 lostRead).2.current = next.machine.globals := by
  intro s next
  have hused : next.Used := ⟨_, _, .single (.interpret s 12 lostRead)⟩
  have hnext := Machine.current_scope_put_back.2.2.2.2.2 next hused
  exact ⟨hused, by decide +kernel, hnext.1, (hnext.2 12 lostRead).1⟩

end Treescript
