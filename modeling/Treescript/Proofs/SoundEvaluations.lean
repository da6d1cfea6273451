import Treescript.Proofs.RaisedFailures
import Treescript.Proofs.SafeRuns

/-!
# Sound evaluations

An evaluation is sound if it begins on a sound machine with live values and, where this is watched,
with proper trees. It then ends well, and so do all evaluations that it leads to: each of them is
sound as well.
-/

namespace Treescript

def Completion.Live (s : Store) : Completion → Prop
  | .normal => True
  | .returned v => v.Live s

def NameMap.Live (s : Store) (vs : NameMap Value) : Prop := ∀ x v, vs.get? x = some v → v.Live s

theorem NameMap.live_empty (s : Store) : NameMap.Live s .empty := by
  intro x v hv
  cases hv

namespace Job

/-- What a job may begin with. Calls have been checked for their number of arguments. -/
def Sound (strict : Prop) (s : Store) : Job → Prop
  | expr e => strict → e.Proper
  | exprs es => strict → Expr.ProperList es
  | optional e? => strict → Expr.ProperOptional e?
  | invocation callee args =>
    callee.Live s ∧ (∀ v ∈ args, v.Live s) ∧ s.arity? callee = some args.length
  | application closure args =>
    closure.Sound strict s ∧ (∀ v ∈ args, v.Live s) ∧ args.length = closure.arity
  | stmt st => strict → st.Proper
  | stmts ss => strict → Stmt.ProperList ss
  | arms as => strict → Arm.ProperList as
  | rounds condition body => strict → condition.Proper ∧ body.Proper
  | members ds before => (strict → Definition.ProperList ds) ∧ before.Live s
  | program p => strict → p.Proper

/-- What the result of a job is like in the store that the job leaves. -/
def Holds (strict : Prop) : (t : Job) → t.Result → Store → Prop
  | expr _, v, s | optional _, v, s | invocation .., v, s | application .., v, s => Value.Live s v
  | exprs _, vs, s => ∀ v ∈ (vs : List Value), v.Live s
  | stmt _, c, s | stmts _, c, s | rounds .., c, s => Completion.Live s c
  | arms _, chosen, _ => strict → Stmt.ProperOptional chosen
  | members .., vs, s => NameMap.Live s vs
  | program _, _, _ => True

end Job

namespace Evaluation

structure Sound (strict : Prop) (x : Evaluation) : Prop where
  machine : x.machine.Sound strict
  job : x.job.Sound strict x.machine.store

def Ends (strict : Prop) (x : Evaluation) : Prop :=
  Run.Ends strict (x.job.run x.fuel) x.machine (x.job.Holds strict)

end Evaluation

/-- The evaluations are the parts of a run: as long as they end well, all of them are sound and the
run ends well. -/
def Run.Safe {α : Type} (strict : Prop) (run : Run α) (m : Machine) (ys : List Evaluation)
    (Q : α → Store → Prop) : Prop :=
  (∀ y ∈ ys, y.Sound strict → y.Ends strict) →
    (∀ y ∈ ys, y.Sound strict) ∧ Run.Ends strict run m Q

variable {strict : Prop}

namespace Run.Safe

variable {α β : Type} {run : Run α} {m m' : Machine} {ys : List Evaluation} {Q R : α → Store → Prop}
  {S : β → Store → Prop}

theorem nil (h : Run.Ends strict run m Q) : Run.Safe strict run m [] Q :=
  fun _ => ⟨List.forall_mem_nil _, h⟩

theorem of_run_eq {run' : Run α} (h : run.run m = run'.run m') (hp : m.Proceeds strict m')
    (h' : Run.Safe strict run' m' ys Q) : Run.Safe strict run m ys Q := by
  intro hys
  obtain ⟨hsound, hends⟩ := h' hys
  exact ⟨hsound, hends.of_run_eq hp h⟩

/-- A step of the machine before the first part. -/
theorem step {prim : Run β} {k : β → Run α} {b : β} (h : prim.run m = (.ok b, m'))
    (hp : m.Proceeds strict m') (hk : Run.Safe strict (k b) m' ys Q) :
    Run.Safe strict (prim >>= k) m ys Q :=
  of_run_eq (by rw [run_bind_eq, h]) hp hk

theorem tail (fuel : Nat) (t : Job) (h : Evaluation.Sound strict ⟨fuel, t, m⟩) :
    Run.Safe strict (t.run fuel) m [⟨fuel, t, m⟩] (t.Holds strict) := by
  intro hys
  refine ⟨List.forall_mem_singleton.2 h, ?_⟩
  exact hys _ (List.mem_singleton_self _) h

theorem imp (h : Run.Safe strict run m ys Q) (himp : ∀ a s, Q a s → R a s) :
    Run.Safe strict run m ys R := by
  intro hys
  obtain ⟨hsound, hends⟩ := h hys
  exact ⟨hsound, hends.imp himp⟩

/-- What comes after the last part is no further part. -/
theorem followed (h : Run.Safe strict run m ys Q) {k : α → Run β}
    (hk : ∀ a m', m.Proceeds strict m' → Q a m'.store → Run.Ends strict (k a) m' S) :
    Run.Safe strict (run >>= k) m ys S := by
  intro hys
  obtain ⟨hsound, hends⟩ := h hys
  exact ⟨hsound, hends.bind hk⟩

theorem single (fuel : Nat) (t : Job) {k : t.Result → Run β}
    (h : Evaluation.Sound strict ⟨fuel, t, m⟩)
    (hk : ∀ a m', m.Proceeds strict m' → t.Holds strict a m'.store → Run.Ends strict (k a) m' S) :
    Run.Safe strict (t.run fuel >>= k) m [⟨fuel, t, m⟩] S :=
  (tail fuel t h).followed hk

/-- A part, and what follows it if it ends with a result. -/
theorem part (fuel : Nat) (t : Job) {k : t.Result → Run β}
    {next : t.Result → Machine → List Evaluation} (h : Evaluation.Sound strict ⟨fuel, t, m⟩)
    (hk : ∀ a m', m.Proceeds strict m' → t.Holds strict a m'.store →
      Run.Safe strict (k a) m' (next a m') S) :
    Run.Safe strict (t.run fuel >>= k) m (Evaluation.andThen ⟨fuel, t, m⟩ next) S := by
  intro hys
  have hends : Evaluation.Ends strict ⟨fuel, t, m⟩ := hys _ (Evaluation.mem_andThen.2 (.inl rfl)) h
  obtain ⟨hp, hsettled⟩ := hends
  rcases hx : Evaluation.outcome ⟨fuel, t, m⟩ with ⟨stop | a, m'⟩
  · have hrun : (t.run fuel).run m = (.error stop, m') := hx
    refine ⟨fun y hy => ?_, ?_⟩
    · rcases Evaluation.mem_andThen.1 hy with rfl | ⟨a, _, ha, -⟩
      · exact h
      · cases hx.symm.trans ha
    · simp only [hrun] at hp hsettled
      rw [Run.Ends, run_bind_eq, hrun]
      exact ⟨hp, hsettled⟩
  · have hrun : (t.run fuel).run m = (.ok a, m') := hx
    simp only [hrun] at hp hsettled
    obtain ⟨hsound, hends⟩ := hk a m' hp hsettled fun y hy =>
      hys y (Evaluation.mem_andThen.2 (.inr ⟨a, m', hx, hy⟩))
    refine ⟨fun y hy => ?_, hends.of_run_eq hp (by rw [run_bind_eq, hrun])⟩
    rcases Evaluation.mem_andThen.1 hy with rfl | ⟨b, m₂, hb, hy⟩
    · exact h
    · cases hx.symm.trans hb
      exact hsound y hy

theorem within {scope : ScopeId} (hm : m.Sound strict)
    (h : Run.Safe strict run { m with current := scope } ys Q) :
    Run.Safe strict (Run.within scope run) m ys Q := by
  intro hys
  obtain ⟨hsound, hends⟩ := h hys
  exact ⟨hsound, hends.within hm⟩

theorem located (fuel : Nat) (t : Job) (token : Token) (h : Evaluation.Sound strict ⟨fuel, t, m⟩) :
    Run.Safe strict (Run.locating token (t.run fuel)) m [⟨fuel, t, m⟩] (t.Holds strict) := by
  intro hys
  obtain ⟨hsound, hends⟩ := tail fuel t h hys
  exact ⟨hsound, hends.locating token⟩

end Run.Safe

open Run.Safe

variable {m : Machine}

theorem Expr.safe (fuel : Nat) (hm : m.Sound strict) (e : Expr) (he : strict → e.Proper) :
    Run.Safe strict (e.eval (fuel + 1)) m (Job.parts fuel m (.expr e)) fun v s => v.Live s := by
  cases e with
  | hole => exact nil (.fault hm he)
  | literal _ l => exact nil (.pure hm ((Value.isConstant_ofLiteral l).live _))
  | «variable» | self => exact nil (.lookup hm _ _ _)
  | assign name value hops =>
    exact single fuel (.expr value) ⟨hm, he⟩ fun v m' hp hv => .assign hp.sound name hops hv
  | unary operator right =>
    refine single fuel (.expr right) ⟨hm, fun hs => (he hs).2⟩ fun v m' hp _ => ?_
    refine .operator hp.sound operator (fun _ => Operator.isConstant_of_prefixed) ?_
    exact fun cause hcause hs => Operator.ordinary_of_prefixed (he hs).1 hcause
  | binary left operator right =>
    refine part fuel (.expr left) ⟨hm, fun hs => (he hs).2.1⟩ fun l m₁ h₁ _ => ?_
    refine single fuel (.expr right) ⟨h₁.sound, fun hs => (he hs).2.2⟩ fun r m₂ h₂ _ => .store ?_
    refine .operator h₂.sound operator (fun _ => Operator.isConstant_of_between) ?_
    exact fun cause hcause hs => Operator.ordinary_of_between (he hs).1 hcause
  | logical left operator right =>
    refine part fuel (.expr left) ⟨hm, fun hs => (he hs).2.1⟩ fun l m₁ h₁ hl => ?_
    by_cases h : Value.isTruthy l = (operator.kind == .operator .or)
    · rw [if_pos h, if_pos h]
      exact nil (.pure h₁.sound hl)
    · rw [if_neg h, if_neg h]
      exact tail fuel (.expr right) ⟨h₁.sound, fun hs => (he hs).2.2⟩
  | count operator target name hops =>
    have htarget : strict → target.Proper := by
      intro hs
      obtain ⟨-, hops', rfl⟩ := he hs
      trivial
    refine single fuel (.expr target) ⟨hm, htarget⟩ fun v m₁ h₁ _ => ?_
    refine (Run.Ends.operator h₁.sound operator (fun _ => Operator.isConstant_of_counted) ?_).bind
      fun v m₂ h₂ hv => .assign h₂.sound name hops hv
    exact fun cause hcause _ => Operator.ordinary_of_counted hcause
  | call callee paren args =>
    refine part fuel (.expr callee) ⟨hm, fun hs => (he hs).1⟩ fun callee m₁ h₁ hcallee => ?_
    refine part fuel (.exprs args) ⟨h₁.sound, fun hs => (he hs).2⟩ fun args m₂ h₂ hargs => ?_
    refine step (Run.run_store m₂) (.refl h₂.sound) ?_
    have hrefuse : ∀ cause : Cause, cause.Ordinary →
        Run.Ends strict (Run.refuse paren cause args) m₂ fun (v : Value) s => v.Live s := by
      intro cause hcause
      refine .throw h₂.sound ⟨fun _ => hcause, ?_⟩
      rintro _ ⟨⟩
      exact hargs
    cases harity : m₂.store.arity? callee with
    | none => exact nil (hrefuse _ trivial)
    | some arity =>
      dsimp only
      by_cases hlength : List.length args = arity
      · have hcall : m₂.store.arity? callee = some (List.length args) := by rw [harity, hlength]
        rw [if_neg (not_not_intro hlength), if_pos (congrArg some hlength.symm)]
        exact located fuel (.invocation callee args) paren
          ⟨h₂.sound, Value.Live.mono hcallee h₂.grows, hargs, hcall⟩
      · rw [if_pos hlength, if_neg (fun heq => hlength (Option.some.inj heq).symm)]
        exact nil (hrefuse _ trivial)
  | group _ inner => exact tail fuel (.expr inner) ⟨hm, he⟩
  | get object name =>
    refine single fuel (.expr object) ⟨hm, he⟩ fun target m₁ h₁ htarget => ?_
    cases target with
    | holder of id => exact .getProperty h₁.sound htarget name
    | _ => exact .fail h₁.sound fun _ => trivial
  | set object name value =>
    refine part fuel (.expr value) ⟨hm, fun hs => (he hs).2⟩ fun v m₁ h₁ hv => ?_
    refine single fuel (.expr object) ⟨h₁.sound, fun hs => (he hs).1⟩ fun target m₂ h₂ _ => ?_
    have hv₂ := Value.Live.mono hv h₂.grows
    cases target with
    | holder of id =>
      exact (Run.Ends.setProperty h₂.sound id name hv₂).bind fun _ m₃ h₃ _ =>
        .pure h₃.sound (hv₂.mono h₃.grows)
    | _ => exact .fail h₂.sound fun _ => trivial
  | parent name => exact nil (.parent hm fuel name)
  | global name => exact nil (.global hm fuel name)

theorem Store.arity_of_closureArity {s : Store} {id n : Nat} {c : Closure}
    (hc : s.closures[id]? = some c) (h : some (s.closureArity id) = some n) : n = c.arity := by
  rw [Store.closureArity, hc] at h
  exact (Option.some.inj h).symm

theorem Value.safe (fuel : Nat) (hm : m.Sound strict) (callee : Value) (args : List Value)
    (h : (Job.invocation callee args).Sound strict m.store) :
    Run.Safe strict (callee.call (fuel + 1) args) m (Job.parts fuel m (.invocation callee args))
      fun v s => v.Live s := by
  obtain ⟨hcallee, hargs, harity⟩ := h
  cases callee with
  | operation id =>
    have hclosure := Array.getElem?_eq_getElem hcallee
    refine step (Run.run_store m) (.refl hm) ?_
    simp only [Job.parts, hclosure]
    exact tail fuel (.application _ args) ⟨hm, hm.store.closures id _ hclosure, hargs,
      Store.arity_of_closureArity hclosure harity⟩
  | native n => exact nil (.native hm fuel (Option.some.inj harity).symm)
  | type t =>
    have hrun := Value.call_type_run fuel t args m
    have hmade : m.Proceeds strict m.addHolder := .addHolder hm
    have hlive : (Value.holder t m.store.holders.size).Live m.addHolder.store :=
      ⟨TypeRef.Live.mono hcallee hmade.grows, by simp [Machine.addHolder, Store.addHolder]⟩
    simp only [Job.parts]
    cases hpilot : m.store.pilot? t with
    | none =>
      simp only [hpilot] at hrun
      exact of_run_eq hrun hmade (nil (.pure hmade.sound hlive))
    | some pilot =>
      have hmethod := Array.getElem?_eq_getElem (hm.store.pilot?_lt hpilot)
      rw [Option.bind_some, hmethod]
      simp only [hpilot, hmethod] at hrun
      have hsound := hm.store.closures pilot _ hmethod
      have hbound : m.addHolder.Proceeds strict (m.addHolder.bindSelf _ _) :=
        .bindSelf hmade.sound (hsound.mono hmade.grows) hlive
      -- the arguments have been counted for the type, which takes as many as its pilot
      have harity : args.length = _ :=
        Store.arity_of_closureArity hmethod (by simpa [Store.arity?, hpilot] using harity)
      refine of_run_eq hrun (hmade.trans hbound) ?_
      refine single fuel (.application (Closure.bound _ m) args) ⟨hbound.sound, ⟨?_, hsound.proper⟩,
        fun v hv => (hargs v hv).mono (hmade.trans hbound).grows, harity⟩ fun _ m' hp _ => ?_
      · simp [Closure.bound, Machine.bindSelf, Machine.addHolder, Store.addHolder, Store.bindSelf,
          Store.addClosure, Store.define, Store.enterScope, Scopes.enter]
      · exact .pure hp.sound (hlive.mono (hbound.grows.trans hp.grows))
  | none | bool | int | float | text | holder => cases harity

theorem Stmt.safe (fuel : Nat) (hm : m.Sound strict) (s : Stmt) (h : strict → s.Proper) :
    Run.Safe strict (s.exec (fuel + 1)) m (Job.parts fuel m (.stmt s)) fun c s => c.Live s := by
  cases s with
  | hole => exact nil (.fault hm h)
  | arm a => exact nil (.fail hm fun hs => (h hs).elim)
  | expression _ value =>
    exact single fuel (.expr value) ⟨hm, h⟩ fun v m' hp _ => .pure hp.sound trivial
  | print _ value =>
    refine single fuel (.expr value) ⟨hm, h⟩ fun v m' hp _ => .store ?_
    exact (Run.Ends.emit hp.sound _).bind fun _ m₂ h₂ _ => .pure h₂.sound trivial
  | define d =>
    refine single fuel (.optional d.initial) ⟨hm, h⟩ fun v m' hp hv => ?_
    exact (Run.Ends.define hp.sound _ hv).bind fun _ m₂ h₂ _ => .pure h₂.sound trivial
  | block _ body =>
    have hopened : m.Proceeds strict { m with store := (m.store.enterScope m.current).1 } :=
      .of_store hm ⟨.enterScope .., Nat.le_refl _⟩ (hm.store.enterScope m.current)
    have hentered : m.Proceeds strict (m.enter m.current []) :=
      .enter hm m.current (List.forall_mem_nil _)
    refine step (Run.run_get m) (.refl hm) (step rfl hopened (within hopened.sound ?_))
    exact tail fuel (.stmts body) ⟨hentered.sound, h⟩
  | operation declaration =>
    have hclosure : Closure.Sound strict m.store ⟨declaration, m.current, false⟩ :=
      ⟨hm.current_lt, h⟩
    refine nil (.get ((Run.Ends.onStore (Q := fun id s => (Value.operation id).Live s) hm
      ⟨.addClosure .., Nat.le_refl _⟩ (hm.store.addClosure hclosure) ?_).bind
      fun id m₁ h₁ hid => ?_))
    · simp [Value.Live, Store.addClosure]
    · exact (Run.Ends.define h₁.sound _ hid).bind fun _ m₂ h₂ _ => .pure h₂.sound trivial
  | conditional _ condition branch arms otherwise =>
    refine part fuel (.expr condition) ⟨hm, fun hs => (h hs).1⟩ fun v m₁ h₁ _ => ?_
    by_cases hv : Value.isTruthy v = true
    · rw [if_pos hv, if_pos hv]
      exact tail fuel (.stmt branch) ⟨h₁.sound, fun hs => (h hs).2.1⟩
    · rw [if_neg hv, if_neg hv]
      refine part fuel (.arms arms) ⟨h₁.sound, fun hs => (h hs).2.2.1⟩
        fun chosen m₂ h₂ hchosen => ?_
      cases chosen with
      | some chosen => exact tail fuel (.stmt chosen) ⟨h₂.sound, hchosen⟩
      | none =>
        cases otherwise with
        | some last => exact tail fuel (.stmt last) ⟨h₂.sound, fun hs => (h hs).2.2.2⟩
        | none => exact nil (.pure h₂.sound trivial)
  | loop _ condition body => exact tail fuel (.rounds condition body) ⟨hm, h⟩
  | «return» _ value =>
    exact single fuel (.optional value) ⟨hm, h⟩ fun v m' hp hv => .pure hp.sound hv
  | object _ name methods =>
    exact nil ((Run.Ends.declareObject hm name h).bind fun _ m₁ h₁ _ => .pure h₁.sound trivial)
  | «enum» _ name elements =>
    exact nil ((Run.Ends.declareEnum hm name elements).bind fun _ m₁ h₁ _ => .pure h₁.sound trivial)
  | form _ name members =>
    have hdefined : m.Proceeds strict (m.define name.text .none) :=
      .define hm m.current name.text (v := .none) trivial
    refine step rfl hdefined ?_
    refine single fuel (.members members .empty) ⟨hdefined.sound, h, NameMap.live_empty _⟩
      fun vs m₁ h₁ hvs => ?_
    exact (Run.Ends.declareForm h₁.sound name hvs).bind fun _ m₂ h₂ _ => .pure h₂.sound trivial

theorem Closure.safe (fuel : Nat) (hm : m.Sound strict) (closure : Closure) (args : List Value)
    (h : (Job.application closure args).Sound strict m.store) :
    Run.Safe strict (closure.call (fuel + 1) args) m (Job.parts fuel m (.application closure args))
      fun v s => v.Live s := by
  obtain ⟨hclosure, hargs, -⟩ := h
  have hbindings : ∀ b ∈ (closure.declaration.params.map (·.text)).zip args, b.2.Live m.store :=
    fun b hb => hargs b.2 (List.of_mem_zip hb).2
  have hentered : m.Proceeds strict (m.enter closure.scope _) := .enter hm closure.scope hbindings
  have hopened : m.Proceeds strict { m.enter closure.scope _ with current := m.current } :=
    .of_store hm hentered.grows hentered.sound.store
  refine step rfl hopened (followed (within hopened.sound
    (tail fuel (.stmts closure.declaration.body) ⟨hentered.sound, ?_⟩))
    fun completion m₁ h₁ hend => ?_)
  · exact fun hs => (hclosure.proper hs).body
  · refine .store ?_
    dsimp only
    split
    · -- a pilot hands back what `self` is bound to by now
      next self _ hself => exact .pure h₁.sound (h₁.sound.store.values self (.binding _ _ hself))
    · exact .pure h₁.sound hend
    · exact .pure h₁.sound trivial

theorem Job.safe (fuel : Nat) (hm : m.Sound strict) (t : Job) (ht : ∀ p, t ≠ .program p)
    (h : t.Sound strict m.store) :
    Run.Safe strict (t.run (fuel + 1)) m (t.parts fuel m) (t.Holds strict) := by
  match t with
  | .expr e => exact e.safe fuel hm h
  | .exprs [] => exact nil (.pure hm (List.forall_mem_nil _))
  | .exprs (e :: es) =>
    refine part fuel (.expr e) ⟨hm, fun hs => (h hs).1⟩ fun v m₁ h₁ hv => ?_
    refine single fuel (.exprs es) ⟨h₁.sound, fun hs => (h hs).2⟩ fun vs m₂ h₂ hvs =>
      .pure h₂.sound ?_
    exact List.forall_mem_cons.2 ⟨Value.Live.mono hv h₂.grows, hvs⟩
  | .optional none => exact nil (.pure hm trivial)
  | .optional (some e) => exact tail fuel (.expr e) ⟨hm, fun hs => h hs e rfl⟩
  | .invocation callee args => exact callee.safe fuel hm args h
  | .application closure args => exact closure.safe fuel hm args h
  | .stmt s => exact s.safe fuel hm h
  | .stmts [] => exact nil (.pure hm trivial)
  | .stmts (s :: ss) =>
    refine part fuel (.stmt s) ⟨hm, fun hs => (h hs).1⟩ fun completion m₁ h₁ hend => ?_
    cases completion with
    | normal => exact tail fuel (.stmts ss) ⟨h₁.sound, fun hs => (h hs).2⟩
    | returned v => exact nil (.pure h₁.sound hend)
  | .arms [] => exact nil (.pure hm fun _ => trivial)
  | .arms (⟨_, condition, branch⟩ :: rest) =>
    refine part fuel (.expr condition) ⟨hm, fun hs => (h hs).1⟩ fun v m₁ h₁ _ => ?_
    refine single fuel (.arms rest) ⟨h₁.sound, fun hs => (h hs).2.2⟩ fun later m₂ h₂ hlater => ?_
    split
    · exact .pure h₂.sound hlater
    · exact .pure h₂.sound fun hs => (h hs).2.1
    · exact .pure h₂.sound hlater
  | .rounds condition body =>
    refine part fuel (.expr condition) ⟨hm, fun hs => (h hs).1⟩ fun v m₁ h₁ _ => ?_
    by_cases hv : Value.isTruthy v = true
    · rw [if_pos hv, if_pos hv]
      refine part fuel (.stmt body) ⟨h₁.sound, fun hs => (h hs).2⟩ fun completion m₂ h₂ hend => ?_
      cases completion with
      | normal => exact tail fuel (.rounds condition body) ⟨h₂.sound, h⟩
      | returned v => exact nil (.pure h₂.sound hend)
    · rw [if_neg hv, if_neg hv]
      exact nil (.pure h₁.sound trivial)
  | .members [] before => exact nil (.pure hm h.2)
  | .members (⟨_, name, initial⟩ :: rest) before =>
    have hds : strict → Expr.ProperOptional initial ∧ Definition.ProperList rest := fun hs =>
      List.forall_mem_cons.1 (h.1 hs)
    refine part fuel (.optional initial) ⟨hm, fun hs => (hds hs).1⟩ fun v m₁ h₁ hv => ?_
    have hdefined : m₁.Proceeds strict (m₁.define name.text v) := .define h₁.sound _ name.text hv
    refine step rfl hdefined (tail fuel (.members rest (before.insert name.text v))
      ⟨hdefined.sound, fun hs => (hds hs).2, fun x w hw => ?_⟩)
    rw [NameMap.get?_insert] at hw
    split at hw
    · cases hw
      exact Value.Live.mono hv hdefined.grows
    · exact (h.2 x w hw).mono (h₁.trans hdefined).grows
  | .program p => exact absurd rfl (ht p)

namespace Evaluation

theorem safe (x : Evaluation) (h : x.Sound strict) :
    Run.Safe strict (x.job.run x.fuel) x.machine x.parts (x.job.Holds strict) := by
  obtain ⟨hm, hjob⟩ := h
  match x with
  | ⟨_, .program [], _⟩ => exact nil (.pure hm trivial)
  | ⟨fuel, .program (s :: rest), m⟩ =>
    refine part fuel (.stmt s) ⟨hm, fun hs => (hjob hs).1⟩ fun _ m₁ h₁ _ => ?_
    exact tail fuel (.program rest) ⟨h₁.sound, fun hs => (hjob hs).2⟩
  | ⟨fuel, .expr _, m⟩ | ⟨fuel, .exprs _, m⟩ | ⟨fuel, .optional _, m⟩
  | ⟨fuel, .invocation .., m⟩ | ⟨fuel, .application .., m⟩ | ⟨fuel, .stmt _, m⟩
  | ⟨fuel, .stmts _, m⟩ | ⟨fuel, .arms _, m⟩ | ⟨fuel, .rounds .., m⟩ | ⟨fuel, .members .., m⟩ =>
    cases fuel with
    | zero => exact nil (.throw hm trivial)
    | succ fuel => exact Job.safe fuel hm _ nofun hjob

theorem Sound.ends {x : Evaluation} (h : x.Sound strict) : x.Ends strict := by
  induction x using parts_induction with
  | step x ih => exact (x.safe h fun y hy hsound => ih y hy hsound).2

theorem Sound.part {x y : Evaluation} (h : x.Sound strict) (hy : y ∈ x.parts) : y.Sound strict :=
  (x.safe h fun _ _ hsound => hsound.ends).1 y hy

theorem Sound.leads {x y : Evaluation} {calls : List Token} (h : x.Sound strict)
    (hlead : x.Leads calls y) : y.Sound strict := by
  induction hlead with
  | here => exact h
  | part hy _ ih => exact ih (h.part hy)

end Evaluation

end Treescript
