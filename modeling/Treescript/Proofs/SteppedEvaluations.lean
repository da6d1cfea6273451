import Treescript.Proofs.Alterations
import Treescript.Proofs.IsolatedHolders
import Treescript.Proofs.RestoredScopes

/-!
# Stepped evaluations

In the course of every evaluation, and of every session, the machine goes along the entries of the
chronicle one by one. One lemma for each construct says how it gets from each part to the next.
-/

namespace Treescript

/-- The run alters the store in the same way whatever scope is current, and stays in its scope. -/
structure Run.Spares {α : Type} (run : Run α) : Prop where
  store : ∀ (m : Machine) (i : ScopeId), m.store.Alters i (run.run m).2.store
  current : ∀ m : Machine, (run.run m).2.current = m.current

namespace Run.Spares

variable {α β : Type} {run : Run α}

theorem of_reads (h : ∀ m, run.Reads m) : Run.Spares run := by
  refine ⟨fun m i => ?_, fun m => congrArg _ (h m)⟩
  rw [show (run.run m).2 = m from h m]
  exact .refl _

theorem pure (a : α) : Run.Spares (Pure.pure a) := of_reads fun _ => .pure a

theorem throw (stop : Stop) : Run.Spares (α := α) (MonadExcept.throw stop) :=
  of_reads fun _ => .throw stop

theorem bind {k : α → Run β} (h : Run.Spares run) (hk : ∀ a, Run.Spares (k a)) :
    Run.Spares (run >>= k) := by
  have hbind : ∀ m : Machine, (∀ i, m.store.Alters i ((run >>= k).run m).2.store) ∧
      ((run >>= k).run m).2.current = m.current := by
    intro m
    have hstore := h.store m
    have hcurrent := h.current m
    rw [run_bind_eq]
    generalize run.run m = end_ at hstore hcurrent
    obtain ⟨stop | a, m'⟩ := end_
    · exact ⟨hstore, hcurrent⟩
    · exact ⟨fun i => (hstore i).trans ((hk a).store m' i), ((hk a).current m').trans hcurrent⟩
  exact ⟨fun m => (hbind m).1, fun m => (hbind m).2⟩

theorem found (a? : Option α) : Run.Spares (Run.found a?) := of_reads fun _ => .found a?

theorem bindSelf (closure : Closure) (v : Value) :
    Run.Spares (Run.onStore (·.bindSelf closure v)) :=
  ⟨fun m _ => .bindSelf m.store closure v, fun _ => rfl⟩

theorem setProperty (id : Nat) (name : Token) (v : Value) :
    Run.Spares (Run.setProperty id name v) :=
  ⟨fun m _ => .setField m.store id name.text v, fun _ => rfl⟩

theorem getProperty (of : TypeRef) (id : Nat) (name : Token) :
    Run.Spares (Run.getProperty of id name) := by
  refine (of_reads fun _ => .store).bind fun s => (found _).bind fun fields => ?_
  split
  · exact .pure _
  · cases of with
    | object t =>
      refine (found _).bind fun type => ?_
      split
      · exact .throw _
      · exact (found _).bind fun closure => (bindSelf closure _).bind fun _ => .pure _
    | «enum» t =>
      refine (found _).bind fun type => ?_
      split
      · exact .pure _
      · split
        · exact .pure _
        · exact .throw _
    | form t =>
      refine (found _).bind fun type => ?_
      split
      · exact .pure _
      · exact .throw _

theorem native (fuel : Nat) (n : Native) (args : List Value) :
    Run.Spares ((Value.native n).call (fuel + 1) args) := by
  rw [Value.call]
  split
  · have hnow : Run.Spares Run.now := ⟨fun m _ => .refl m.store, fun _ => rfl⟩
    exact hnow.bind fun time => .of_reads fun _ => .applied n time args
  · exact .of_reads fun _ => .applied n 0 args

end Run.Spares

/-- The run alters the store and assigns nothing, and stays in its scope. -/
structure Run.Alters {α : Type} (run : Run α) : Prop where
  store : ∀ m : Machine, m.store.Alters m.current (run.run m).2.store
  current : ∀ m : Machine, (run.run m).2.current = m.current

namespace Run.Alters

variable {α β : Type} {run : Run α}

theorem of_spares (h : Run.Spares run) : Run.Alters run :=
  ⟨fun m => h.store m m.current, h.current⟩

theorem of_reads (h : ∀ m, run.Reads m) : Run.Alters run := of_spares (.of_reads h)

theorem pure (a : α) : Run.Alters (Pure.pure a) := of_reads fun _ => .pure a

theorem throw (stop : Stop) : Run.Alters (α := α) (MonadExcept.throw stop) :=
  of_reads fun _ => .throw stop

theorem bind {k : α → Run β} (h : Run.Alters run) (hk : ∀ a, Run.Alters (k a)) :
    Run.Alters (run >>= k) := by
  have hbind : ∀ m : Machine, m.store.Alters m.current ((run >>= k).run m).2.store ∧
      ((run >>= k).run m).2.current = m.current := by
    intro m
    have hstore := h.store m
    have hcurrent := h.current m
    rw [run_bind_eq]
    generalize run.run m = end_ at hstore hcurrent
    obtain ⟨stop | a, m'⟩ := end_
    · exact ⟨hstore, hcurrent⟩
    · dsimp only at hcurrent
      have hrest := (hk a).store m'
      rw [hcurrent] at hrest
      exact ⟨hstore.trans hrest, ((hk a).current m').trans hcurrent⟩
  exact ⟨fun m => (hbind m).1, fun m => (hbind m).2⟩

theorem get : Run.Alters get := of_reads fun _ => .get

theorem onStore {f : Store → Store × α} (hf : ∀ (i : ScopeId) (s : Store), s.Alters i (f s).1) :
    Run.Alters (Run.onStore f) :=
  ⟨fun m => hf m.current m.store, fun _ => rfl⟩

theorem emit (e : Event) : Run.Alters (Run.emit e) := ⟨fun m => .refl m.store, fun _ => rfl⟩

theorem define (x : String) (v : Value) : Run.Alters (Run.define x v) :=
  ⟨fun m => .define m.store x v, fun _ => rfl⟩

theorem operator (token : Token) (result : Except Cause Value) :
    Run.Alters (Run.operator token result) := of_reads fun _ => .operator token result

theorem declareObject (name : Token) (methods : List Operation) :
    Run.Alters (Run.declareObject name methods) := by
  refine ⟨fun m => ?_, fun _ => rfl⟩
  exact (Store.Alters.define m.store name.text .none).trans
    ((Store.Alters.addObject _ m.current name.text methods).trans (.define _ _ _))

theorem declareEnum (name : Token) (elements : List Token) :
    Run.Alters (Run.declareEnum name elements) :=
  (define name.text .none).bind fun _ => (onStore fun _ s => .addEnum s _).bind fun _ =>
    (define name.text _).bind fun _ => emit _

theorem declareForm (name : Token) (members : NameMap Value) :
    Run.Alters (Run.declareForm name members) :=
  (onStore fun _ s => .addForm s _).bind fun _ => (define name.text _).bind fun _ => emit _

end Run.Alters

/-- From where the evaluation begins the machine goes along its chronicle to where it ends. -/
def Evaluation.Stepped (x : Evaluation) : Prop :=
  ∀ m : Machine, m.Advances (.begun x) x.machine → m.Path x.chronicle x.outcome.2

/-- The evaluations are the parts of a run: if the machine goes along their chronicles, then it has
only to alter the store after the last of them to get to the end of the run. The machine has stood
as `m₀` at the last entry before the run. -/
def Run.Steps {α : Type} (run : Run α) (m₀ m : Machine) (ys : List Evaluation) : Prop :=
  (∀ y ∈ ys, y.Stepped) → ∃ m₁, m₀.Path (ys.flatMap Evaluation.chronicle) m₁ ∧
    m₁.store.Alters m₁.current (run.run m).2.store

namespace Run.Steps

variable {α β : Type} {run : Run α} {m₀ m m' : Machine} {ys : List Evaluation}

theorem nil (h : Run.Alters run) : Run.Steps run m m [] := fun _ => ⟨m, .nil m, h.store m⟩

/-- A step of the machine before the first part. -/
theorem step {prim : Run β} {k : β → Run α} {b : β} (h : prim.run m = (.ok b, m'))
    (hk : Run.Steps (k b) m₀ m' ys) : Run.Steps (prim >>= k) m₀ m ys := by
  intro hys
  obtain ⟨m₁, hpath, hlast⟩ := hk hys
  refine ⟨m₁, hpath, ?_⟩
  rw [run_bind_eq, h]
  exact hlast

theorem tail (fuel : Nat) (t : Job) (h : m₀.Advances (.begun ⟨fuel, t, m⟩) m) :
    Run.Steps (t.run fuel) m₀ m [⟨fuel, t, m⟩] := by
  intro hys
  have hpath := hys _ (List.mem_singleton_self _) m₀ h
  rw [List.flatMap_singleton]
  exact ⟨_, hpath, .refl _⟩

/-- What comes after the last part only reads. -/
theorem followed (h : Run.Steps run m₀ m ys) {k : α → Run β} (hk : ∀ a m', (k a).Reads m') :
    Run.Steps (run >>= k) m₀ m ys := by
  intro hys
  obtain ⟨m₁, hpath, hlast⟩ := h hys
  refine ⟨m₁, hpath, ?_⟩
  rw [run_bind_eq]
  generalize run.run m = end_ at hlast
  obtain ⟨stop | a, m'⟩ := end_
  · exact hlast
  · rw [show ((k a).run m').2 = m' from hk a m']
    exact hlast

/-- A part, and what follows it if it ends with a result. -/
theorem part (fuel : Nat) (t : Job) {k : t.Result → Run β}
    {next : t.Result → Machine → List Evaluation} (h : m₀.Advances (.begun ⟨fuel, t, m⟩) m)
    (hk : ∀ a m', Run.Steps (k a) m' m' (next a m')) :
    Run.Steps (t.run fuel >>= k) m₀ m (Evaluation.andThen ⟨fuel, t, m⟩ next) := by
  intro hys
  have hpath := hys _ (Evaluation.mem_andThen.2 (.inl rfl)) m₀ h
  rw [run_bind_eq]
  rcases hx : Evaluation.outcome ⟨fuel, t, m⟩ with ⟨stop | a, m'⟩
  · rw [Evaluation.andThen, hx, List.flatMap_singleton,
      show (t.run fuel).run m = (.error stop, m') from hx]
    rw [hx] at hpath
    exact ⟨m', hpath, .refl _⟩
  · rw [Evaluation.andThen, hx] at hys
    obtain ⟨m₁, hrest, hlast⟩ := hk a m' fun y hy => hys y (List.mem_cons_of_mem _ hy)
    rw [hx] at hpath
    rw [Evaluation.andThen, hx, List.flatMap_cons, show (t.run fuel).run m = (.ok a, m') from hx]
    exact ⟨m₁, hpath.append hrest, hlast⟩

theorem single (fuel : Nat) (t : Job) {k : t.Result → Run β}
    (h : m₀.Advances (.begun ⟨fuel, t, m⟩) m) (hk : ∀ a, Run.Alters (k a)) :
    Run.Steps (t.run fuel >>= k) m₀ m [⟨fuel, t, m⟩] := by
  have hpart : Run.Steps (t.run fuel >>= k) m₀ m (Evaluation.andThen ⟨fuel, t, m⟩ fun _ _ => []) :=
    part fuel t h fun a m' => nil (hk a)
  have hparts : Evaluation.andThen ⟨fuel, t, m⟩ (fun _ _ => []) = [⟨fuel, t, m⟩] := by
    rw [Evaluation.andThen]
    split <;> rfl
  rwa [hparts] at hpart

theorem within {scope : ScopeId} (h : Run.Steps run m₀ { m with current := scope } ys) :
    Run.Steps (Run.within scope run) m₀ m ys := h

theorem located (fuel : Nat) (t : Job) (token : Token) (h : m₀.Advances (.begun ⟨fuel, t, m⟩) m) :
    Run.Steps (Run.locating token (t.run fuel)) m₀ m [⟨fuel, t, m⟩] := by
  intro hys
  obtain ⟨m₁, hpath, hlast⟩ := tail fuel t h hys
  refine ⟨m₁, hpath, ?_⟩
  rw [Run.locating_run]
  generalize (t.run fuel).run m = end_ at hlast
  obtain ⟨stop | a, m'⟩ := end_ <;> exact hlast

end Run.Steps

open Run.Steps

variable {m : Machine}

/-- A part that begins where the machine stood at the last entry. -/
theorem Machine.Advances.here (fuel : Nat) (t : Job) (m : Machine) :
    m.Advances (.begun ⟨fuel, t, m⟩) m :=
  .begun (.refl _) (.inl rfl)

theorem Expr.steps (fuel : Nat) (e : Expr) (he : e.assigns? = none) :
    Run.Steps (e.eval (fuel + 1)) m m (Job.parts fuel m (.expr e)) := by
  cases e with
  | hole => exact nil (.throw _)
  | literal => exact nil (.pure _)
  | «variable» | self => exact nil (.of_reads fun _ => .lookup ..)
  | assign | count => cases he
  | unary operator right => exact single fuel (.expr right) (.here ..) fun v => .operator operator _
  | binary left operator right =>
    refine part fuel (.expr left) (.here ..) fun l m₁ => ?_
    refine single fuel (.expr right) (.here ..) fun r => ?_
    exact (Run.Alters.of_reads fun _ => .store).bind fun _ => .operator operator _
  | logical left operator right =>
    refine part fuel (.expr left) (.here ..) fun l m₁ => ?_
    by_cases h : Value.isTruthy l = (operator.kind == .operator .or)
    · rw [if_pos h, if_pos h]
      exact nil (.pure _)
    · rw [if_neg h, if_neg h]
      exact tail fuel (.expr right) (.here ..)
  | call callee paren args =>
    refine part fuel (.expr callee) (.here ..) fun callee m₁ => ?_
    refine part fuel (.exprs args) (.here ..) fun args m₂ => step (Run.run_store m₂) ?_
    cases harity : m₂.store.arity? callee with
    | none => exact nil (.throw _)
    | some arity =>
      dsimp only
      by_cases hlength : List.length args = arity
      · rw [if_neg (not_not_intro hlength), if_pos (congrArg some hlength.symm)]
        exact located fuel (.invocation callee args) paren (.here ..)
      · rw [if_pos hlength, if_neg fun heq => hlength (Option.some.inj heq).symm]
        exact nil (.throw _)
  | group _ inner => exact tail fuel (.expr inner) (.here ..)
  | get object name =>
    refine single fuel (.expr object) (.here ..) fun target => ?_
    cases target with
    | holder of id => exact .of_spares (.getProperty of id name)
    | _ => exact .throw _
  | set object name value =>
    refine part fuel (.expr value) (.here ..) fun v m₁ => ?_
    refine single fuel (.expr object) (.here ..) fun target => ?_
    cases target with
    | holder of id =>
      exact (Run.Alters.of_spares (.setProperty id name v)).bind fun _ => .pure _
    | _ => exact .throw _
  | parent name => exact nil (.of_reads fun _ => .parent fuel name)
  | global name => exact nil (.of_reads fun _ => .global fuel name)

theorem Value.steps (fuel : Nat) (callee : Value) (args : List Value) :
    Run.Steps (callee.call (fuel + 1) args) m m (Job.parts fuel m (.invocation callee args)) := by
  cases callee with
  | operation id =>
    refine step (Run.run_store m) ?_
    simp only [Job.parts]
    cases m.store.closures[id]? with
    | none => exact nil (.throw _)
    | some closure => exact tail fuel (.application closure args) (.here ..)
  | native n => exact nil (.of_spares (.native fuel n args))
  | type t =>
    intro hys
    simp only [Job.parts] at hys ⊢
    rw [Value.call_type_run]
    cases hpilot : m.store.pilot? t with
    | none => exact ⟨m, .nil m, .addHolder _⟩
    | some pilot =>
      simp only [hpilot, Option.bind_some] at hys ⊢
      cases hmethod : m.store.closures[pilot]? with
      | none => exact ⟨m, .nil m, .addHolder _⟩
      | some method =>
        simp only [hmethod] at hys ⊢
        have hbound : m.store.Alters m.current (m.addHolder.bindSelf method _).store :=
          .trans (.addHolder m.store) (.bindSelf _ method (.holder t m.store.holders.size))
        exact single fuel (.application (method.bound m) args) (.begun hbound (.inl rfl))
          (fun _ => .pure _) hys
  | none | bool | int | float | text | holder => exact nil (.throw _)

/-- A scope for a call, and the body in it. -/
theorem Closure.steps (fuel : Nat) (closure : Closure) (args : List Value) :
    Run.Steps (closure.call (fuel + 1) args) m m
      (Job.parts fuel m (.application closure args)) := by
  refine step rfl (followed (within (tail fuel (.stmts closure.declaration.body) ?_)) ?_)
  · exact .begun (.enter m.store closure.scope _) (.inr (Nat.le_refl _))
  · intro completion m'
    refine Run.Reads.store.bind fun s => ?_
    dsimp only
    split <;> exact .pure _

theorem Stmt.steps (fuel : Nat) (s : Stmt) :
    Run.Steps (s.exec (fuel + 1)) m m (Job.parts fuel m (.stmt s)) := by
  cases s with
  | hole | arm => exact nil (.throw _)
  | expression _ value => exact single fuel (.expr value) (.here ..) fun v => .pure _
  | print _ value =>
    refine single fuel (.expr value) (.here ..) fun v => ?_
    exact (Run.Alters.of_reads fun _ => .store).bind fun _ =>
      (Run.Alters.emit _).bind fun _ => .pure _
  | define d =>
    refine single fuel (.optional d.initial) (.here ..) fun v => ?_
    exact (Run.Alters.define d.name.text v).bind fun _ => .pure _
  | block _ body =>
    refine step (Run.run_get m) (step rfl (within (tail fuel (.stmts body) ?_)))
    exact .begun (.enter m.store m.current []) (.inr (Nat.le_refl _))
  | operation declaration =>
    refine nil (Run.Alters.get.bind fun m₁ => ?_)
    exact (Run.Alters.onStore fun _ s => .addOperation s declaration _).bind fun id =>
      (Run.Alters.define declaration.name.text _).bind fun _ => .pure _
  | conditional _ condition branch arms otherwise =>
    refine part fuel (.expr condition) (.here ..) fun v m₁ => ?_
    by_cases hv : Value.isTruthy v = true
    · rw [if_pos hv, if_pos hv]
      exact tail fuel (.stmt branch) (.here ..)
    · rw [if_neg hv, if_neg hv]
      refine part fuel (.arms arms) (.here ..) fun chosen m₂ => ?_
      cases chosen with
      | some chosen => exact tail fuel (.stmt chosen) (.here ..)
      | none =>
        cases otherwise with
        | some last => exact tail fuel (.stmt last) (.here ..)
        | none => exact nil (.pure _)
  | loop _ condition body => exact tail fuel (.rounds condition body) (.here ..)
  | «return» _ value => exact single fuel (.optional value) (.here ..) fun v => .pure _
  | object _ name methods =>
    exact nil ((Run.Alters.declareObject name methods).bind fun _ => .pure _)
  | «enum» _ name elements =>
    exact nil ((Run.Alters.declareEnum name elements).bind fun _ => .pure _)
  | form _ name members =>
    have hrun : (Run.define name.text .none).run m = (.ok (), m.define name.text .none) := rfl
    refine step hrun ?_
    refine single fuel (.members members .empty)
      (.begun (.define m.store name.text .none) (.inl rfl)) fun vs => ?_
    exact (Run.Alters.declareForm name vs).bind fun _ => .pure _

theorem Job.steps (fuel : Nat) (t : Job) (ht : ∀ p, t ≠ .program p)
    (hassigns : ∀ e, t = .expr e → e.assigns? = none) :
    Run.Steps (t.run (fuel + 1)) m m (t.parts fuel m) := by
  match t with
  | .expr e => exact e.steps fuel (hassigns e rfl)
  | .exprs [] => exact nil (.pure _)
  | .exprs (e :: es) =>
    refine part fuel (.expr e) (.here ..) fun v m₁ => ?_
    exact single fuel (.exprs es) (.here ..) fun vs => .pure _
  | .optional none => exact nil (.pure _)
  | .optional (some e) => exact tail fuel (.expr e) (.here ..)
  | .invocation callee args => exact callee.steps fuel args
  | .application closure args => exact closure.steps fuel args
  | .stmt s => exact s.steps fuel
  | .stmts [] => exact nil (.pure _)
  | .stmts (s :: ss) =>
    refine part fuel (.stmt s) (.here ..) fun completion m₁ => ?_
    cases completion with
    | normal => exact tail fuel (.stmts ss) (.here ..)
    | returned v => exact nil (.pure _)
  | .arms [] => exact nil (.pure _)
  | .arms (⟨_, condition, branch⟩ :: rest) =>
    refine part fuel (.expr condition) (.here ..) fun v m₁ => ?_
    refine single fuel (.arms rest) (.here ..) fun chosen => ?_
    split <;> exact .pure _
  | .rounds condition body =>
    refine part fuel (.expr condition) (.here ..) fun v m₁ => ?_
    by_cases hv : Value.isTruthy v = true
    · rw [if_pos hv, if_pos hv]
      refine part fuel (.stmt body) (.here ..) fun completion m₂ => ?_
      cases completion with
      | normal => exact tail fuel (.rounds condition body) (.here ..)
      | returned v => exact nil (.pure _)
    · rw [if_neg hv, if_neg hv]
      exact nil (.pure _)
  | .members [] before => exact nil (.pure _)
  | .members (⟨_, name, initial⟩ :: rest) before =>
    refine part fuel (.optional initial) (.here ..) fun v m₁ => ?_
    have hrun : (Run.define name.text v).run m₁ = (.ok (), m₁.define name.text v) := rfl
    refine step hrun (tail fuel (.members rest _) ?_)
    exact .begun (.define m₁.store name.text v) (.inl rfl)
  | .program p => exact absurd rfl (ht p)

/-- An expression that assigns evaluates one part, and assigns last. -/
theorem Expr.store_of_assigns (fuel : Nat) {e : Expr} {variable_ : Token × Option Nat}
    (he : e.assigns? = some variable_) (m : Machine) :
    ∃ value, Job.parts fuel m (.expr e) = [⟨fuel, .expr value, m⟩] ∧
      ((e.eval (fuel + 1)).run m).2.store =
        (Evaluation.outcome ⟨fuel, .expr value, m⟩).2.store.assign
          (Assignment.of? variable_.1 variable_.2 ((e.eval (fuel + 1)).run m)) := by
  -- assignments and counts differ only in what they do with the value of the part
  have hpart : ∀ (value : Expr) (k : Value → Run Value),
      (∀ v m₁, ((k v).run m₁).2.store = m₁.store.assign
        (Assignment.of? variable_.1 variable_.2 ((k v).run m₁))) →
      ((value.eval fuel >>= k).run m).2.store =
        (Evaluation.outcome ⟨fuel, .expr value, m⟩).2.store.assign
          (Assignment.of? variable_.1 variable_.2 ((value.eval fuel >>= k).run m)) := by
    intro value k hk
    rw [run_bind_eq]
    rcases hx : Evaluation.outcome ⟨fuel, .expr value, m⟩ with ⟨stop | v, m₁⟩
    · rw [show (value.eval fuel).run m = (.error stop, m₁) from hx]
      rfl
    · rw [show (value.eval fuel).run m = (.ok v, m₁) from hx]
      exact hk v m₁
  cases e with
  | assign name value hops =>
    obtain rfl := Option.some.inj he
    exact ⟨value, rfl, hpart value _ fun v m₁ => Run.store_assign name hops v m₁⟩
  | count operator target name hops =>
    obtain rfl := Option.some.inj he
    refine ⟨target, rfl, hpart target _ fun v m₁ => ?_⟩
    rw [run_bind_eq]
    cases Operator.counted operator v with
    | error cause => rfl
    | ok w => exact Run.store_assign name hops w m₁
  | _ => cases he

theorem Expr.steps_of_assigns {fuel : Nat} {e : Expr} {variable_ : Token × Option Nat}
    (he : e.assigns? = some variable_)
    (hys : ∀ y ∈ Job.parts fuel m (.expr e), y.Stepped) :
    ∃ m₁, m.Path ((Job.parts fuel m (.expr e)).flatMap Evaluation.chronicle) m₁ ∧
      ((e.eval (fuel + 1)).run m).2.store = m₁.store.assign
        (Assignment.of? variable_.1 variable_.2 ((e.eval (fuel + 1)).run m)) := by
  obtain ⟨value, hparts, hstore⟩ := Expr.store_of_assigns fuel he m
  rw [hparts] at hys ⊢
  rw [List.flatMap_singleton]
  exact ⟨_, hys _ (.head _) m (.here ..), hstore⟩

theorem Job.advances (fuel : Nat) (t : Job) (ht : ∀ p, t ≠ .program p)
    (hys : ∀ y ∈ t.parts fuel m, y.Stepped) :
    ∃ m₁, m.Path ((t.parts fuel m).flatMap Evaluation.chronicle) m₁ ∧
      m₁.Advances (.ended ⟨fuel + 1, t, m⟩) (Evaluation.outcome ⟨fuel + 1, t, m⟩).2 := by
  by_cases h : ∃ e variable_, t = .expr e ∧ e.assigns? = some variable_
  · obtain ⟨e, variable_, rfl, he⟩ := h
    obtain ⟨m₁, hpath, hlast⟩ := Expr.steps_of_assigns he hys
    refine ⟨m₁, hpath, .ended (.refl _) ?_⟩
    rw [Evaluation.assignment?, he]
    exact hlast
  · have hnone : ∀ e, t = .expr e → e.assigns? = none := fun e he =>
      Option.eq_none_iff_forall_ne_some.2 fun variable_ hv => h ⟨e, variable_, he, hv⟩
    obtain ⟨m₁, hpath, hlast⟩ := t.steps fuel ht hnone hys
    have hassigned : Evaluation.assignment? ⟨fuel + 1, t, m⟩ = none := by
      cases t with
      | expr e => simp [Evaluation.assignment?, hnone e rfl]
      | _ => rfl
    refine ⟨m₁, hpath, .ended hlast ?_⟩
    rw [hassigned]
    rfl

theorem Evaluation.stepped (x : Evaluation) (h : ∀ p, x.job ≠ .program p) : x.Stepped := by
  obtain ⟨fuel, t, m⟩ := x
  induction fuel generalizing t m with
  | zero =>
    intro m₀ hbegun
    have hrun : outcome ⟨0, t, m⟩ = (.error .outOfFuel, m) := by
      cases t <;> first | rfl | exact absurd rfl (h _)
    have hassigned : assignment? ⟨0, t, m⟩ = none := by
      cases t with
      | expr e =>
        rw [assignment?, show (e.eval 0).run m = _ from hrun]
        cases e.assigns? <;> rfl
      | _ => rfl
    have hended : m.Advances (.ended ⟨0, t, m⟩) (outcome ⟨0, t, m⟩).2 := by
      refine .ended (.refl _) ?_
      rw [hassigned, hrun]
      rfl
    exact .entry hbegun (.entry hended (.nil _))
  | succ fuel ih =>
    intro m₀ hbegun
    -- the parts are evaluated with less fuel, whatever their jobs are
    have hys : ∀ y ∈ t.parts fuel m, y.Stepped := by
      intro y hy
      obtain ⟨rfl, hprogram⟩ := Job.of_mem_parts hy
      exact ih y.job y.machine hprogram
    obtain ⟨m₁, hpath, hended⟩ := t.advances fuel h hys
    rw [chronicle_succ]
    have hopening := Machine.Path.of_silent (fun _ => Job.machine?_of_mem_opening (t := t)) m
    have hsilent : ∀ k ∈ t.closing fuel m, k.machine? = none :=
      fun _ => Job.machine?_of_mem_closing
    have hclosing := Machine.Path.of_silent hsilent m₁
    exact .entry hbegun (((hopening.append hpath).append hclosing).append (.entry hended (.nil _)))

theorem Program.path (fuel : Nat) (p : Program) (m : Machine) :
    m.Path (p.chronicle fuel m) ((p.run fuel).run m).2 := by
  induction p generalizing m with
  | nil => exact .nil m
  | cons s rest ih =>
    have hstmt := Evaluation.stepped ⟨fuel, .stmt s, m⟩ nofun m (.here ..)
    have hrun : (Program.run fuel (s :: rest)).run m =
        (s.exec fuel >>= fun _ => Program.run fuel rest).run m := rfl
    rw [Program.chronicle, hrun, run_bind_eq]
    rcases hx : Evaluation.outcome ⟨fuel, .stmt s, m⟩ with ⟨stop | a, m'⟩
    · rw [Evaluation.whenDone_error hx, List.append_nil,
        show (s.exec fuel).run m = (.error stop, m') from hx]
      rw [hx] at hstmt
      exact hstmt
    · rw [Evaluation.whenDone_ok hx, show (s.exec fuel).run m = (.ok a, m') from hx]
      rw [hx] at hstmt
      exact hstmt.append (ih m')

theorem Machine.path {m : Machine} (hm : m.Idle) (programs : List (Nat × Program)) :
    ∃ m', m.Path (m.chronicle programs) m' := by
  have hidle : ∀ {m m' : Machine}, m'.store = m.store → m'.current = m.current →
      m.Advances (.idle m') m' :=
    fun hstore hcurrent => ⟨rfl, ⟨_, .refl _, hstore⟩, .inr (.inl hcurrent)⟩
  suffices h : ∀ m₀ : Machine, m.store = m₀.store → m.current = m₀.current →
      ∃ m', m₀.Path (m.chronicle programs) m' from h m rfl rfl
  induction programs generalizing m with
  | nil => exact fun m₀ hstore hcurrent => ⟨m, .entry (hidle hstore hcurrent) (.nil m)⟩
  | cons entry rest ih =>
    obtain ⟨fuel, p⟩ := entry
    intro m₀ hstore hcurrent
    have hend : (m.interpret fuel p).2.current = ((p.run fuel).run m).2.current := calc
      _ = (m.interpret fuel p).2.globals := hm.interpret fuel p
      _ = m.globals := m.globals_interpret fuel p
      _ = m.current := hm.symm
      _ = _ := ((p.continues fuel).later m).current.symm
    obtain ⟨m', hrest⟩ := ih (hm.interpret fuel p) _ (m.interpret_eq fuel p).1 hend
    exact ⟨m', .entry (hidle hstore hcurrent) ((p.path fuel m).append hrest)⟩

theorem Chronicle.OfSession.path {c : Chronicle} (h : c.OfSession) :
    ∃ clock modules m', (Machine.start clock modules).Path c m' := by
  obtain ⟨clock, modules, programs, rfl⟩ := h
  exact ⟨clock, _, Machine.path (m := Machine.start clock _) rfl programs⟩

end Treescript
