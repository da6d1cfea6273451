import Treescript.Proofs.WatchedRuns

/-!
# Watching changes nothing

With the record dropped, a watched run is the run itself: it has the same result and leaves the same
machine. So whatever holds at every moment of a watched run holds at every moment of the run.
-/

namespace Treescript

theorem run_bind_eq {σ α β : Type} (x : ExceptT Stop (StateM σ) α)
    (f : α → ExceptT Stop (StateM σ) β) (s : σ) :
    (x >>= f).run s =
      match x.run s with
      | (.ok a, s') => (f a).run s'
      | (.error stop, s') => (.error stop, s') := by
  simp only [bind, ExceptT.bind, ExceptT.run_mk, StateT.bind]
  rcases h : x.run s with ⟨_ | _, _⟩
  all_goals
    rw [ExceptT.run] at h
    simp only [h]
    rfl

theorem run_tryCatch_eq {σ α : Type} (x : ExceptT Stop (StateM σ) α)
    (f : Stop → ExceptT Stop (StateM σ) α) (s : σ) :
    (tryCatch x f).run s =
      match x.run s with
      | (.ok a, s') => (.ok a, s')
      | (.error stop, s') => (f stop).run s' := by
  simp only [tryCatch, tryCatchThe, MonadExceptOf.tryCatch, ExceptT.tryCatch, ExceptT.run_mk, bind,
    StateT.bind]
  rcases h : x.run s with ⟨_ | _, _⟩
  all_goals
    rw [ExceptT.run] at h
    simp only [h]
    rfl
/-- With the record dropped, the watched run is the run. -/
def Erases {α : Type} (w : Watch α) (r : Run α) : Prop :=
  ∀ o : Observed, r.run o.state.machine = ((w.run o).1, (w.run o).2.state.machine)

/-- Adds to the record only. -/
def Silent {α : Type} (w : Watch α) : Prop :=
  ∀ o : Observed, ∃ a o', w.run o = (.ok a, o') ∧ o'.state.machine = o.state.machine

namespace Erases

variable {α β γ : Type} {w : Watch α} {r : Run α}

theorem pure (a : α) : Erases (Pure.pure a) (Pure.pure a) := fun _ => rfl

theorem throw (stop : Stop) : Erases (α := α) (MonadExcept.throw stop) (MonadExcept.throw stop) :=
  fun _ => rfl

theorem lift (r : Run α) : Erases (Watch.lift r) r := fun _ => rfl

theorem bind {f : α → Watch β} {g : α → Run β} (hw : Erases w r)
    (hf : ∀ a, Erases (f a) (g a)) : Erases (w >>= f) (r >>= g) := by
  intro o
  rw [run_bind_eq, run_bind_eq, hw o]
  rcases w.run o with ⟨_ | a, o'⟩
  · rfl
  · exact hf a o'

theorem silent {u : Watch β} {f : β → Watch α} (hu : Silent u) (hf : ∀ b, Erases (f b) r) :
    Erases (u >>= f) r := by
  intro o
  obtain ⟨b, o', hrun, hm⟩ := hu o
  rw [run_bind_eq, hrun, ← hm]
  exact hf b o'

/-- What follows only adds to the record. -/
theorem last {f : α → Watch α} (hw : Erases w r) (hf : ∀ a, Erases (f a) (Pure.pure a)) :
    Erases (w >>= f) r := by
  have h := hw.bind hf
  rwa [bind_pure] at h

theorem bind_map {u : Watch β} {v : Run γ} {k : β → γ} {f : β → Watch α} {g : γ → Run α}
    (hu : Erases (k <$> u) v) (hf : ∀ b, Erases (f b) (g (k b))) : Erases (u >>= f) (v >>= g) := by
  intro o
  have ho := hu o
  rw [map_eq_pure_bind, run_bind_eq] at ho
  rw [run_bind_eq, run_bind_eq, ho]
  rcases u.run o with ⟨_ | b, o'⟩
  · rfl
  · exact hf b o'

theorem ite {c : Prop} [Decidable c] {u : Watch α} {v : Run α} (hw : Erases w r)
    (hu : Erases u v) : Erases (if c then w else u) (if c then r else v) := by
  by_cases hc : c
  · simpa only [hc, if_true] using hw
  · simpa only [hc, if_false] using hu

theorem within (scope : ScopeId) (h : Erases w r) :
    Erases (Watch.within scope w) (Run.within scope r) := by
  intro o
  have ho : r.run { o.state.machine with current := scope } = _ := h (o.moveTo scope)
  simp only [Run.within, Watch.within, ExceptT.run_mk, ho]
  rfl

theorem locating (token : Token) (h : Erases w r) :
    Erases (Watch.locating token w) (Run.locating token r) := by
  intro o
  rw [Run.locating, Watch.locating, run_tryCatch_eq, run_tryCatch_eq, h o]
  rcases w.run o with ⟨stop | a, o'⟩
  · cases stop <;> rfl
  · rfl

end Erases

namespace Silent

theorem note (sight : Sight) (P : Place) : Silent (Watch.note sight P) := fun _ => ⟨_, _, rfl, rfl⟩

theorem state : Silent Watch.state := fun _ => ⟨_, _, rfl, rfl⟩

theorem label {f : Labelled → Labelled} (hf : ∀ s, (f s).machine = s.machine) :
    Silent (Watch.label f) := fun o => ⟨_, _, rfl, hf o.state⟩

end Silent

theorem Labelled.machine_labelMethods (s : Labelled) (P : Place) (first : Nat)
    (methods : List Operation) : (s.labelMethods P first methods).machine = s.machine := by
  induction methods generalizing s P first with
  | nil => rfl
  | cons _ rest ih => rw [labelMethods, ih]; rfl

namespace Erases

theorem access (P : Place) (e : Expr) (written : Value) :
    Erases (Watch.access P e written) (e.access written) :=
  .silent (.note _ _) fun _ => .lift _

theorem label {f : Labelled → Labelled} (hf : ∀ s, (f s).machine = s.machine) :
    Erases (Watch.label f) (Pure.pure ()) := fun o => Prod.ext rfl (hf o.state).symm

theorem bindSelf (P : Place) (closure : Closure) (value : Value) :
    Erases (Watch.bindSelf P closure value) (Run.onStore (·.bindSelf closure value)) := by
  refine .silent .state fun _ => .last (.lift _) fun id => ?_
  exact .silent (.label fun _ => rfl) fun _ => .silent (.label fun _ => rfl) fun _ => .pure id

theorem enterScope (regions : List Region) :
    Erases (Watch.enterScope regions) (do
      let current := (← get).current
      Run.onStore (·.enterScope current)) :=
  (Erases.lift _).bind fun _ => .last (.lift _) fun scope =>
    .silent (.label fun _ => rfl) fun _ => .pure scope

theorem enterCall (regions : List Region) (closure : Closure) (args : List Value) :
    Erases (Watch.enterCall regions closure args) (Run.enterCall closure args) :=
  .last (.lift _) fun scope => .silent (.label fun _ => rfl) fun _ => .pure scope

theorem declareOperation (P : Place) (o : Operation) :
    Erases (Watch.declareOperation P o) (do
      let scope := (← get).current
      let id ← Run.onStore (·.addClosure ⟨o, scope, false⟩)
      Run.define o.name.text (.operation id)) :=
  (Erases.lift _).bind fun _ => (Erases.lift _).bind fun _ =>
    .silent (.label fun _ => rfl) fun _ => .lift _

theorem getProperty (of : TypeRef) (id : Nat) (name : Token) :
    Erases (Watch.getProperty of id name) (Run.getProperty of id name) := by
  refine .silent .state fun s => .last (.lift _) fun value => ?_
  cases s.machine.store.methodRead? of id name.text with
  | none => exact .pure value
  | some method =>
    exact .silent (.label fun _ => rfl) fun _ => .silent (.label fun _ => rfl) fun _ => .pure value

theorem declareObject (P : Place) (name : Token) (methods : List Operation) :
    Erases (Watch.declareObject P name methods) (Run.declareObject name methods) := by
  refine .silent .state fun s => .last (.lift _) fun _ => ?_
  exact .label fun t => t.machine_labelMethods P _ methods

end Erases

mutual

theorem Expr.erases (fuel : Nat) (P : Place) (e : Expr) :
    Erases (e.watch fuel P) (e.eval fuel) := by
  match fuel, e with
  | 0, _ => exact .throw _
  | fuel + 1, .hole => exact .silent (.note _ _) fun _ => .throw _
  | fuel + 1, .literal .. => exact .silent (.note _ _) fun _ => .pure _
  | fuel + 1, .variable .. | fuel + 1, .self .. =>
    exact .silent (.note _ _) fun _ => .access _ _ _
  | fuel + 1, .assign _ value _ =>
    exact .silent (.note _ _) fun _ => (Expr.erases fuel P value).bind fun _ => .access _ _ _
  | fuel + 1, .unary _ right =>
    exact .silent (.note _ _) fun _ => (Expr.erases fuel P right).bind fun _ => .lift _
  | fuel + 1, .binary left _ right =>
    exact .silent (.note _ _) fun _ => (Expr.erases fuel P left).bind fun _ =>
      (Expr.erases fuel P right).bind fun _ => .lift _
  | fuel + 1, .logical left operator right =>
    refine .silent (.note _ _) fun _ => (Expr.erases fuel P left).bind fun value => ?_
    exact .ite (.pure _) (Expr.erases fuel P right)
  | fuel + 1, .count _ target _ _ =>
    exact .silent (.note _ _) fun _ => (Expr.erases fuel P target).bind fun _ =>
      (Erases.lift _).bind fun _ => .access _ _ _
  | fuel + 1, .call callee paren args =>
    refine .silent (.note _ _) fun _ => (Expr.erases fuel P callee).bind fun callee => ?_
    refine (Expr.erasesList fuel P args).bind fun args => (Erases.lift _).bind fun store => ?_
    cases store.arity? callee with
    | none => exact .lift _
    | some arity => exact .ite (.lift _) ((Value.erasesCall fuel callee args).locating paren)
  | fuel + 1, .group _ inner =>
    exact .silent (.note _ _) fun _ => Expr.erases fuel P inner
  | fuel + 1, .get object name =>
    refine .silent (.note _ _) fun _ => (Expr.erases fuel P object).bind fun target => ?_
    cases target with
    | holder of id => exact .getProperty of id name
    | _ => exact .lift _
  | fuel + 1, .set object name value =>
    refine .silent (.note _ _) fun _ => (Expr.erases fuel P value).bind fun value => ?_
    refine (Expr.erases fuel P object).bind fun target => ?_
    cases target with
    | holder of id => exact (Erases.lift _).bind fun _ => .pure _
    | _ => exact .lift _
  | fuel + 1, .parent _ | fuel + 1, .global _ => exact .silent (.note _ _) fun _ => .lift _

theorem Expr.erasesList (fuel : Nat) (P : Place) (es : List Expr) :
    Erases (Expr.watchList fuel P es) (Expr.evalList fuel es) := by
  match fuel, es with
  | 0, _ => exact .throw _
  | fuel + 1, [] => exact .pure _
  | fuel + 1, e :: es =>
    exact (Expr.erases fuel P e).bind fun _ => (Expr.erasesList fuel P es).bind fun _ => .pure _

theorem Value.erasesCall (fuel : Nat) (callee : Value) (args : List Value) :
    Erases (callee.watchCall fuel args) (callee.call fuel args) := by
  match fuel, callee with
  | 0, _ => exact .throw _
  | fuel + 1, .operation id =>
    exact (Erases.lift _).bind fun _ => (Erases.lift _).bind fun closure =>
      .silent .state fun _ => Closure.erases fuel _ closure args
  | fuel + 1, .native n => exact .lift _
  | fuel + 1, .type t =>
    refine (Erases.lift _).bind fun holder => (Erases.lift _).bind fun store => ?_
    cases store.pilot? t with
    | none => exact .pure _
    | some pilot =>
      refine (Erases.lift _).bind fun _ => (Erases.lift _).bind fun closure => ?_
      refine .silent .state fun _ => (Erases.bindSelf _ closure _).bind fun bound => ?_
      refine (Erases.lift _).bind fun _ => (Erases.lift _).bind fun closure => ?_
      exact (Closure.erases fuel _ closure args).bind fun _ => .pure _
  | _ + 1, .none | _ + 1, .bool _ | _ + 1, .int _ | _ + 1, .float _ | _ + 1, .text _
  | _ + 1, .holder .. => exact .throw _

theorem Closure.erases (fuel : Nat) (P : Place) (closure : Closure) (args : List Value) :
    Erases (closure.watch fuel P args) (closure.call fuel args) := by
  match fuel with
  | 0 => exact .throw _
  | fuel + 1 =>
    refine (Erases.enterCall _ closure args).bind fun scope => ?_
    refine ((Stmt.erasesList fuel _ closure.declaration.body).within scope).bind fun end_ => ?_
    refine (Erases.lift _).bind fun store => ?_
    cases closure.isPilot <;> cases store.scopes.get? closure.scope selfName <;> cases end_ <;>
      exact .pure _

theorem Stmt.erases (fuel : Nat) (P : Place) (s : Stmt) :
    Erases (s.watch fuel P) (s.exec fuel) := by
  match fuel, s with
  | 0, _ => exact .throw _
  | fuel + 1, .hole => exact .silent (.note _ _) fun _ => .throw _
  | fuel + 1, .expression _ value =>
    exact .silent (.note _ _) fun _ => (Expr.erases fuel P value).bind fun _ => .pure _
  | fuel + 1, .print _ value =>
    exact .silent (.note _ _) fun _ => (Expr.erases fuel P value).bind fun _ =>
      (Erases.lift _).bind fun _ => (Erases.lift _).bind fun _ => .pure _
  | fuel + 1, .define ⟨_, name, initial⟩ =>
    exact .silent (.note _ _) fun _ => (Expr.erasesOptional fuel _ initial).bind fun _ =>
      (Erases.lift _).bind fun _ => .pure _
  | fuel + 1, .block _ body =>
    refine .silent (.note _ _) fun _ => ?_
    have h := (Erases.enterScope (P.enter (Stmt.declaresList body)).regions).bind fun scope =>
      (Stmt.erasesList fuel (P.enter (Stmt.declaresList body)) body).within scope
    rwa [bind_assoc] at h
  | fuel + 1, .operation o =>
    refine .silent (.note _ _) fun _ => ?_
    have h := (Erases.declareOperation (P.after [o.name.text]) o).bind fun _ =>
      .pure Completion.normal
    simp only [bind_assoc] at h
    exact h
  | fuel + 1, .conditional _ condition branch arms otherwise =>
    refine .silent (.note _ _) fun _ => (Expr.erases fuel P condition).bind fun value => ?_
    refine .ite (Stmt.erases fuel _ branch) ?_
    refine (Arm.erasesChoose fuel _ arms).bind_map fun chosen => ?_
    cases chosen with
    | some chosen => exact Stmt.erases fuel chosen.2 chosen.1
    | none =>
      cases otherwise with
      | some last => exact Stmt.erases fuel _ last
      | none => exact .pure _
  | fuel + 1, .arm _ => exact .silent (.note _ _) fun _ => .lift _
  | fuel + 1, .loop _ condition body =>
    exact .silent (.note _ _) fun _ => Stmt.erasesRepeat fuel P condition body
  | fuel + 1, .return _ value =>
    exact .silent (.note _ _) fun _ => (Expr.erasesOptional fuel P value).bind fun _ => .pure _
  | fuel + 1, .object _ name methods =>
    exact .silent (.note _ _) fun _ => (Erases.declareObject _ name methods).bind fun _ => .pure _
  | fuel + 1, .enum .. =>
    exact .silent (.note _ _) fun _ => (Erases.lift _).bind fun _ => .pure _
  | fuel + 1, .form _ name members =>
    exact .silent (.note _ _) fun _ => (Erases.lift _).bind fun _ =>
      (Definition.erasesMembers fuel _ members .empty).bind fun _ =>
        (Erases.lift _).bind fun _ => .pure _

theorem Expr.erasesOptional (fuel : Nat) (P : Place) (e? : Option Expr) :
    Erases (Expr.watchOptional fuel P e?) (Expr.evalOptional fuel e?) := by
  match fuel, e? with
  | 0, _ => exact .throw _
  | fuel + 1, none => exact .pure _
  | fuel + 1, some e => exact Expr.erases fuel P e

theorem Stmt.erasesList (fuel : Nat) (P : Place) (ss : List Stmt) :
    Erases (Stmt.watchList fuel P ss) (Stmt.execList fuel ss) := by
  match fuel, ss with
  | 0, _ => exact .throw _
  | fuel + 1, [] => exact .pure _
  | fuel + 1, s :: ss =>
    refine (Stmt.erases fuel _ s).bind fun completion => ?_
    cases completion with
    | normal => exact Stmt.erasesList fuel _ ss
    | returned value => exact .pure _

theorem Arm.erasesChoose (fuel : Nat) (P : Place) (arms : List Arm) :
    Erases (Option.map Prod.fst <$> Arm.watchChoose fuel P arms) (Arm.choose fuel arms) := by
  match fuel, arms with
  | 0, _ => exact .throw _
  | fuel + 1, [] => exact .pure _
  | fuel + 1, ⟨_, condition, branch⟩ :: rest =>
    rw [Arm.watchChoose, map_bind]
    refine (Expr.erases fuel _ condition).bind fun value => ?_
    rw [map_bind]
    refine (Arm.erasesChoose fuel _ rest).bind_map fun later => ?_
    cases value.isTruthy with
    | false => exact .pure _
    | true => cases branch <;> exact .pure _

theorem Stmt.erasesRepeat (fuel : Nat) (P : Place) (condition : Expr) (body : Stmt) :
    Erases (Stmt.watchRepeat fuel P condition body) (Stmt.repeat fuel condition body) := by
  match fuel with
  | 0 => exact .throw _
  | fuel + 1 =>
    refine (Expr.erases fuel P condition).bind fun value => .ite ?_ (.pure _)
    refine (Stmt.erases fuel _ body).bind fun completion => ?_
    cases completion with
    | normal => exact Stmt.erasesRepeat fuel P condition body
    | returned value => exact .pure _

theorem Definition.erasesMembers (fuel : Nat) (P : Place) (ds : List Definition)
    (members : NameMap Value) :
    Erases (Definition.watchMembers fuel P ds members)
      (Definition.evalMembers fuel ds members) := by
  match fuel, ds with
  | 0, _ => exact .throw _
  | fuel + 1, [] => exact .pure _
  | fuel + 1, ⟨_, name, initial⟩ :: rest =>
    exact (Expr.erasesOptional fuel P initial).bind fun _ => (Erases.lift _).bind fun _ =>
      Definition.erasesMembers fuel _ rest _

end

theorem Program.erases (fuel : Nat) (P : Place) (p : Program) :
    Erases (p.watch fuel P) (p.run fuel) := by
  induction p generalizing P with
  | nil => exact .pure _
  | cons s rest ih => exact (Stmt.erases fuel _ s).bind fun _ => ih _

/-- The machine after a session of programs. -/
def Machine.interpretAll (m : Machine) (programs : List (Nat × Program)) : Machine :=
  programs.foldl (fun m entry => (m.interpret entry.1 entry.2.resolve.program).2) m

theorem Observed.machine_interpretAll (o : Observed) (first : Nat)
    (programs : List (Nat × Program)) :
    (o.interpretAll first programs).state.machine = o.state.machine.interpretAll programs := by
  induction programs generalizing o first with
  | nil => rfl
  | cons entry rest ih => exact ih _ _

end Treescript
