import Treescript.Proofs.Constants
import Treescript.Proofs.Erasure
import Treescript.Proofs.ScopeFrames

/-!
# Contracts of watched steps

`Keeps` says of a part of a watched run, started in a given state, that it leaves a sound world
which has only grown, comes back to the scope it started in and binds there nothing but the names
that it may, notes only moments that agree with the text, and that a result it ends with is right.
The steps that evaluation is made of have their contracts here, one for each; how they are put
together is the business of evaluation.
-/

namespace Treescript

def Sight.seen : Sight → Node
  | .node n => n
  | .access e _ => .expr e

section

variable (T : Texts)

/-- The node stands at the place in the text, and the scope it is evaluated in is an activation of
the innermost local scope around the place. -/
structure Moment.Agrees (x : Moment) : Prop where
  visit : T.visits ⟨.node x.sight.seen, x.place⟩
  sound : x.state.world.Sound T
  occupies : x.state.world.Occupies T x.place x.state.machine.current

structure Observed.Fine (o : Observed) : Prop where
  sound : o.state.world.Sound T
  past : ∀ x ∈ o.past, x.Agrees T

/-- The way from one state to another, with the names that the current scope may have gained. -/
structure Observed.Leads (names : List String) (o o' : Observed) : Prop where
  fine : o'.Fine T
  grows : o.state.world.Grows o'.state.world
  frames : o.state.world.Frames o'.state.world o.state.machine.current names
  current : o'.state.machine.current = o.state.machine.current

def Keeps {α : Type} (names : List String) (watch : Watch α) (o : Observed)
    (Q : World → α → Prop) : Prop :=
  o.Leads T names (watch.run o).2 ∧
    ∀ a, (watch.run o).1 = .ok a → Q (watch.run o).2.state.world a

end

variable {T : Texts} {o : Observed} {α β : Type} {N M : List String}

namespace Observed

theorem Fine.leads (h : o.Fine T) : o.Leads T N o := ⟨h, .refl _, .refl _ _ _, rfl⟩

namespace Leads

theorem trans {o₁ o₂ o₃ : Observed} (h : o₁.Leads T N o₂) (h' : o₂.Leads T M o₃) :
    o₁.Leads T (N ++ M) o₃ := by
  have hframes := h'.frames
  rw [h.current] at hframes
  exact ⟨h'.fine, h.grows.trans h'.grows, h.frames.trans h.grows hframes,
    h'.current.trans h.current⟩

theorem weaken {o' : Observed} (h : o.Leads T N o') (hsub : N ⊆ M) : o.Leads T M o' :=
  ⟨h.fine, h.grows, h.frames.weaken hsub, h.current⟩

theorem activates {o' : Observed} (h : o.Leads T N o') {P : Place}
    (ha : o.state.world.Activates T P o.state.machine.current) :
    o'.state.world.Activates T P o'.state.machine.current := by
  rw [h.current]
  exact ha.mono h.grows

/-- What holds of the current scope still holds when a strict program has bound nothing in it. -/
theorem occupies_of_strict {o' : Observed} (h : o.Leads T N o') {P : Place}
    (hn : T.strict P.program → N = [])
    (ha : o.state.world.Occupies T P o.state.machine.current) :
    o'.state.world.Occupies T P o'.state.machine.current := by
  rw [h.current]
  exact ha.mono h.grows h.frames hn

theorem occupies {o' : Observed} (h : o.Leads T [] o') {P : Place}
    (ha : o.state.world.Occupies T P o.state.machine.current) :
    o'.state.world.Occupies T P o'.state.machine.current :=
  h.occupies_of_strict (fun _ => rfl) ha

end Leads

end Observed

namespace Keeps

variable {watch : Watch α} {Q : World → α → Prop}

theorem of_run {result : Except Stop α} {o' : Observed} (hrun : watch.run o = (result, o'))
    (hl : o.Leads T N o') (hq : ∀ a, result = .ok a → Q o'.state.world a) :
    Keeps T N watch o Q := by
  refine ⟨?_, ?_⟩
  · rw [hrun]
    exact hl
  · rw [hrun]
    exact hq

theorem of_run_eq {other : Watch α} (hrun : watch.run o = other.run o)
    (h : Keeps T N other o Q) : Keeps T N watch o Q := by
  rw [Keeps, hrun]
  exact h

theorem weaken (h : Keeps T N watch o Q) (hsub : N ⊆ M) : Keeps T M watch o Q :=
  ⟨h.1.weaken hsub, h.2⟩

theorem pure (hf : o.Fine T) {a : α} (hq : Q o.state.world a) : Keeps T N (Pure.pure a) o Q :=
  of_run rfl hf.leads fun _ ha => Except.ok.inj ha ▸ hq

theorem throw (hf : o.Fine T) (stop : Stop) : Keeps T N (MonadExcept.throw stop) o Q :=
  of_run rfl hf.leads nofun

theorem followed {f : α → Watch β} {R : World → β → Prop} (h : Keeps T N watch o Q)
    (hf : ∀ a o', o.Leads T N o' → Q o'.state.world a → Keeps T M (f a) o' R) :
    Keeps T (N ++ M) (watch >>= f) o R := by
  obtain ⟨hl, hq⟩ := h
  cases hrun : watch.run o with
  | mk result o' =>
    rw [hrun] at hl hq
    cases result with
    | error stop =>
      have hbind : (watch >>= f).run o = (.error stop, o') := by rw [run_bind_eq, hrun]
      exact of_run hbind (hl.weaken (List.subset_append_left _ _)) nofun
    | ok a =>
      have hnext := hf a o' hl (hq a rfl)
      have hbind : (watch >>= f).run o = (f a).run o' := by rw [run_bind_eq, hrun]
      refine ⟨?_, ?_⟩
      · rw [hbind]
        exact hl.trans hnext.1
      · rw [hbind]
        exact hnext.2

/-- The usual case: the first part binds nothing in the current scope. -/
theorem bind {f : α → Watch β} {R : World → β → Prop} (h : Keeps T [] watch o Q)
    (hf : ∀ a o', o.Leads T [] o' → Q o'.state.world a → Keeps T M (f a) o' R) :
    Keeps T M (watch >>= f) o R :=
  h.followed hf

theorem imp {R : World → α → Prop} (h : Keeps T N watch o Q)
    (hqr : ∀ a o', o.Leads T N o' → Q o'.state.world a → R o'.state.world a) :
    Keeps T N watch o R :=
  ⟨h.1, fun a ha => hqr a _ h.1 (h.2 a ha)⟩

theorem ite {c : Prop} [Decidable c] {other : Watch α} (h : c → Keeps T N watch o Q)
    (h' : ¬c → Keeps T N other o Q) : Keeps T N (if c then watch else other) o Q := by
  by_cases hc : c
  · rw [if_pos hc]
    exact h hc
  · rw [if_neg hc]
    exact h' hc

/-- A run in a new scope, from which it comes back. -/
theorem opened {enter : Watch ScopeId} {body : ScopeId → Watch α} {A : World → ScopeId → Prop}
    {R : ScopeId → World → α → Prop}
    (h : Keeps T [] enter o fun w scope => o.state.world.scopes.size ≤ scope ∧ A w scope)
    (hb : ∀ scope o', o.Leads T [] o' → A o'.state.world scope →
      Keeps T N (body scope) (o'.moveTo scope) (R scope)) :
    Keeps T [] (enter >>= fun scope => Watch.within scope (body scope)) o
      fun w a => ∃ scope, R scope w a := by
  obtain ⟨hl, hq⟩ := h
  cases hrun : enter.run o with
  | mk result o' =>
    rw [hrun] at hl hq
    cases result with
    | error stop =>
      have hbind : (enter >>= fun scope => Watch.within scope (body scope)).run o =
          (.error stop, o') := by rw [run_bind_eq, hrun]
      exact of_run hbind hl nofun
    | ok scope =>
      obtain ⟨hnew, ha⟩ := hq scope rfl
      obtain ⟨hl', hq'⟩ := hb scope o' hl ha
      have hbind : (enter >>= fun scope => Watch.within scope (body scope)).run o =
          (Watch.within scope (body scope)).run o' := by rw [run_bind_eq, hrun]
      -- the body gives names to the new scope only, which was not there at the start
      have hframes : o.state.world.Frames ((body scope).run (o'.moveTo scope)).2.state.world
          scope ([] ++ N) := hl.frames.of_nil.trans hl.grows hl'.frames
      refine ⟨?_, ?_⟩
      · rw [hbind]
        exact ⟨⟨hl'.fine.sound, hl'.fine.past⟩, hl.grows.trans hl'.grows, hframes.of_new hnew,
          hl.current⟩
      · rw [hbind]
        exact fun a ha => ⟨scope, hq' a ha⟩

theorem locating {token : Token} (h : Keeps T N watch o Q) :
    Keeps T N (Watch.locating token watch) o Q := by
  obtain ⟨hl, hq⟩ := h
  have hrun : (Watch.locating token watch).run o = _ := run_tryCatch_eq watch _ o
  cases hw : watch.run o with
  | mk result o' =>
    rw [hw] at hl hq hrun
    cases result with
    | ok a => exact of_run hrun hl hq
    | error stop =>
      cases stop <;> refine of_run hrun hl fun _ ha => ?_ <;> cases ha

theorem note (sight : Sight) {P : Place} (hf : o.Fine T)
    (hv : T.visits ⟨.node sight.seen, P⟩)
    (ha : o.state.world.Occupies T P o.state.machine.current) :
    Keeps T [] (Watch.note sight P) o fun _ _ => True := by
  refine of_run rfl ⟨⟨hf.sound, fun x hx => ?_⟩, .refl _, .refl _ _ _, rfl⟩ fun _ _ => trivial
  rcases List.mem_cons.1 hx with rfl | hx
  · exact ⟨hv, hf.sound, ha⟩
  · exact hf.past x hx

theorem node {n : Node} {P : Place} (hf : o.Fine T) (hv : T.visits ⟨.node n, P⟩)
    (ha : o.state.world.Occupies T P o.state.machine.current) :
    Keeps T [] (Watch.note (.node n) P) o fun _ _ => True :=
  note (.node n) hf hv ha

theorem state (hf : o.Fine T) :
    Keeps T [] Watch.state o fun w s => w = o.state.world ∧ s.origins = w.origins :=
  of_run rfl hf.leads fun _ hs => Except.ok.inj hs ▸ ⟨rfl, rfl⟩

/-- A step of the machine, by what it does to the store. -/
theorem lift (hf : o.Fine T) {run : Run α} {result : Except Stop α} {m : Machine}
    (hrun : run.run o.state.machine = (result, m)) (hg : m.globals = o.state.machine.globals)
    (hc : m.current = o.state.machine.current)
    (hsound : World.Sound T { o.state.world with store := m.store })
    (hgrows : o.state.world.Grows { o.state.world with store := m.store })
    (hframes : o.state.world.Frames { o.state.world with store := m.store }
      o.state.machine.current N)
    (hq : ∀ a, result = .ok a → Q { o.state.world with store := m.store } a) :
    Keeps T N (Watch.lift run) o Q := by
  have hw : Labelled.world { o.state with machine := m } =
      { o.state.world with store := m.store } := by
    simp only [Labelled.world, hg]
  have hlift : (Watch.lift run).run o =
      (result, { o with state := { o.state with machine := m } }) := by
    simp only [Watch.lift, ExceptT.run_mk, hrun]
  refine of_run hlift ⟨⟨?_, hf.past⟩, ?_, ?_, hc⟩ ?_
  · rw [hw]
    exact hsound
  · rw [hw]
    exact hgrows
  · rw [hw]
    exact hframes
  · rw [hw]
    exact hq

theorem lift_same (hf : o.Fine T) {run : Run α} {result : Except Stop α} {m : Machine}
    (hrun : run.run o.state.machine = (result, m)) (hs : m.store = o.state.machine.store)
    (hg : m.globals = o.state.machine.globals) (hc : m.current = o.state.machine.current)
    (hq : ∀ a, result = .ok a → Q o.state.world a) : Keeps T N (Watch.lift run) o Q := by
  have hw : { o.state.world with store := m.store } = o.state.world := by rw [hs]; rfl
  refine lift hf hrun hg hc ?_ ?_ ?_ ?_
  · rw [hw]
    exact hf.sound
  · rw [hw]
    exact .refl _
  · rw [hw]
    exact .refl _ _ _
  · rw [hw]
    exact hq

theorem lift_followed {run : Run α} {f : α → Run β} {R : World → β → Prop}
    (h : Keeps T N (Watch.lift run) o Q)
    (hf : ∀ a o', o.Leads T N o' → Q o'.state.world a → Keeps T M (Watch.lift (f a)) o' R) :
    Keeps T (N ++ M) (Watch.lift (run >>= f)) o R := by
  have heq : Watch.lift (run >>= f) = Watch.lift run >>= fun a => Watch.lift (f a) := by
    refine funext fun o => ?_
    change (Watch.lift (run >>= f)).run o = (Watch.lift run >>= fun a => Watch.lift (f a)).run o
    rw [run_bind_eq]
    simp only [Watch.lift, ExceptT.run_mk, run_bind_eq]
    rcases run.run o.state.machine with ⟨_ | _, _⟩ <;> rfl
  rw [heq]
  exact h.followed hf

theorem lift_bind {run : Run α} {f : α → Run β} {R : World → β → Prop}
    (h : Keeps T [] (Watch.lift run) o Q)
    (hf : ∀ a o', o.Leads T [] o' → Q o'.state.world a → Keeps T M (Watch.lift (f a)) o' R) :
    Keeps T M (Watch.lift (run >>= f)) o R :=
  h.lift_followed hf

theorem machine (hf : o.Fine T) :
    Keeps T [] (Watch.lift get) o fun w m => w = o.state.world ∧ m = o.state.machine :=
  lift_same hf rfl rfl rfl rfl fun _ hm => ⟨rfl, (Except.ok.inj hm).symm⟩

theorem store (hf : o.Fine T) :
    Keeps T [] (Watch.lift Run.store) o fun w s => w = o.state.world ∧ s = w.store :=
  lift_same hf rfl rfl rfl rfl fun _ hs => ⟨rfl, (Except.ok.inj hs).symm⟩

theorem found (hf : o.Fine T) (a? : Option α) :
    Keeps T [] (Watch.lift (Run.found a?)) o fun w a => w = o.state.world ∧ a? = some a := by
  cases a? with
  | none => exact lift_same hf rfl rfl rfl rfl nofun
  | some a =>
    exact lift_same hf rfl rfl rfl rfl fun _ ha => ⟨rfl, congrArg some (Except.ok.inj ha)⟩

/-- An operation is looked up in the store before it is used. -/
theorem closure {f : Closure → Watch β} {R : World → β → Prop} (hf : o.Fine T) (id : Nat)
    (h : ∀ c o', o.Leads T [] o' → o'.state.world = o.state.world →
      o'.state.world.store.closures[id]? = some c → Keeps T M (f c) o' R) :
    Keeps T M (Watch.lift Run.store >>= fun s => Watch.lift (Run.found s.closures[id]?) >>= f)
      o R := by
  refine (store hf).bind fun s o₁ hl₁ ⟨hw₁, hs⟩ => ?_
  refine (found hl₁.fine _).bind fun c o₂ hl₂ ⟨hw₂, hc⟩ => ?_
  rw [hs, ← hw₂] at hc
  exact h c o₂ (hl₁.trans hl₂) (hw₂.trans hw₁) hc

theorem fail (hf : o.Fine T) (token : Token) (cause : Cause) :
    Keeps T N (Watch.lift (Run.fail token cause)) o Q :=
  lift_same hf rfl rfl rfl rfl nofun

theorem refuse (hf : o.Fine T) (token : Token) (cause : Cause) (args : List Value) :
    Keeps T N (Watch.lift (Run.refuse token cause args)) o Q :=
  lift_same hf rfl rfl rfl rfl nofun

end Keeps

theorem Value.IsConstant.fits {v : Value} (h : v.IsConstant) (w : World) : v.Fits w := by
  cases v with
  | operation id => exact h.elim
  | _ => trivial

def Machine.target? (m : Machine) : Option Nat → Option ScopeId
  | some n => m.store.scopes.ancestor? n m.current
  | none => some m.globals

theorem Run.run_get (m : Machine) : (get : Run Machine).run m = (.ok m, m) := rfl

theorem Run.lookup_run (token : Token) (x : String) (hops : Option Nat) (m : Machine) :
    (Run.lookup token x hops).run m =
      match (m.target? hops).bind (m.store.scopes.get? · x) with
      | some v => (.ok v, m)
      | none => (.error (.failure ⟨token, .undefinedVariable x, none⟩), m) := by
  cases hops with
  | none =>
    simp only [Run.lookup, run_bind_eq, run_get, Machine.target?, Option.bind_some]
    cases m.store.scopes.get? m.globals x <;> rfl
  | some n =>
    simp only [Run.lookup, run_bind_eq, run_get, Machine.target?, Scopes.getAt?]
    cases (m.store.scopes.ancestor? n m.current).bind (m.store.scopes.get? · x) <;> rfl

theorem Run.assign_run (name : Token) (hops : Option Nat) (v : Value) (m : Machine) :
    (Run.assign name hops v).run m =
      match (m.target? hops).filter fun i => (m.store.scopes.get? i name.text).isSome with
      | some i => (.ok v, { m with store := m.store.define i name.text v })
      | none => (.error (.failure ⟨name, .undefinedVariable name.text, none⟩), m) := by
  cases hops with
  | none =>
    simp only [Run.assign, run_bind_eq, run_get, Machine.target?, Scopes.binderAt?,
      Scopes.ancestor?]
    cases (some m.globals).filter fun i => (m.store.scopes.get? i name.text).isSome <;> rfl
  | some n =>
    simp only [Run.assign, run_bind_eq, run_get, Machine.target?, Scopes.binderAt?]
    cases (m.store.scopes.ancestor? n m.current).filter
      fun i => (m.store.scopes.get? i name.text).isSome <;> rfl

variable {P : Place}

namespace Keeps

theorem result (hf : o.Fine T) {Q : World → α → Prop} {a : α} (hq : Q o.state.world a) :
    Keeps T [] (Watch.lift (Pure.pure a)) o Q :=
  lift_same hf rfl rfl rfl rfl fun _ ha => Except.ok.inj ha ▸ hq

theorem operator (hf : o.Fine T) (token : Token) {r : Except Cause Value}
    (hr : ∀ v, r = .ok v → v.IsConstant) :
    Keeps T [] (Watch.lift (Run.operator token r)) o fun w v => v.Fits w := by
  cases r with
  | error cause => exact fail hf token cause
  | ok v => exact lift_same hf rfl rfl rfl rfl fun _ ha => Except.ok.inj ha ▸ (hr v rfl).fits _

theorem define (hf : o.Fine T) (ha : o.state.world.Activates T P o.state.machine.current)
    {x : String} (hp : P.Permits [x]) {v : Value} (hv : v.Fits o.state.world) :
    Keeps T [x] (Watch.lift (Run.define x v)) o fun w _ => w.Binds o.state.machine.current x :=
  lift hf rfl rfl rfl (hf.sound.define hv (ha.permits hp)) (World.grows_define ..)
    (World.frames_define _ _ _ _) fun _ _ => World.binds_define ha.1 x v

theorem lookup (hf : o.Fine T) (token : Token) (x : String) (hops : Option Nat) :
    Keeps T [] (Watch.lift (Run.lookup token x hops)) o fun w v => v.Fits w := by
  have hrun := Run.lookup_run token x hops o.state.machine
  cases hv : (o.state.machine.target? hops).bind (o.state.machine.store.scopes.get? · x) with
  | none =>
    rw [hv] at hrun
    exact lift_same hf hrun rfl rfl rfl nofun
  | some v =>
    rw [hv] at hrun
    obtain ⟨a, -, ha⟩ := Option.bind_eq_some_iff.1 hv
    refine lift_same hf hrun rfl rfl rfl fun u hu => ?_
    obtain rfl := Except.ok.inj hu
    exact hf.sound.bindings a x v ha

theorem assign (hf : o.Fine T) (name : Token) (hops : Option Nat) {v : Value}
    (hv : v.Fits o.state.world) :
    Keeps T [] (Watch.lift (Run.assign name hops v)) o fun w u => u.Fits w := by
  have hrun := Run.assign_run name hops v o.state.machine
  cases hi : (o.state.machine.target? hops).filter
      fun i => (o.state.machine.store.scopes.get? i name.text).isSome with
  | none =>
    rw [hi] at hrun
    exact lift_same hf hrun rfl rfl rfl nofun
  | some i =>
    rw [hi] at hrun
    have hb : o.state.world.Binds i name.text := (Option.filter_eq_some_iff.1 hi).2
    refine lift hf hrun rfl rfl (hf.sound.define hv (hf.sound.permits_of_binds hb))
      (World.grows_define ..) (World.frames_define_of_binds hb v) fun u hu => ?_
    obtain rfl := Except.ok.inj hu
    exact hv.mono (World.grows_define ..)

theorem access (hf : o.Fine T) {e : Expr} {v : Value}
    (hvisit : T.visits ⟨.node (.expr e), P⟩)
    (ha : o.state.world.Occupies T P o.state.machine.current) (hv : v.Fits o.state.world) :
    Keeps T [] (Watch.access P e v) o fun w u => u.Fits w := by
  refine (note (.access e v) hf hvisit ha).bind fun _ o' hl _ => ?_
  have hv' := hv.mono hl.grows
  match e with
  | .variable name hops => exact lookup hl.fine name name.text hops
  | .self keyword hops => exact lookup hl.fine keyword selfName hops
  | .assign name _ hops | .count _ _ name hops => exact assign hl.fine name hops hv'
  | .hole | .literal .. | .unary .. | .binary .. | .logical .. | .call .. | .group .. | .get ..
  | .set .. | .parent _ | .global _ =>
    exact lift_same hl.fine rfl rfl rfl rfl fun _ hu => Except.ok.inj hu ▸ hv'

theorem print (hf : o.Fine T) (line : String) :
    Keeps T [] (Watch.lift (Run.print line)) o fun _ _ => True :=
  lift_same hf rfl rfl rfl rfl fun _ _ => trivial

theorem parent (hf : o.Fine T) (name : Token) :
    Keeps T [] (Watch.lift ((Expr.parent name).eval 1)) o fun w v => v.Fits w := by
  refine lift_bind (machine hf) fun m o' hl hm => ?_
  cases m.store.scopes.outer? m.current with
  | none => exact fail hl.fine name _
  | some outer =>
    cases hv : m.store.scopes.resolve? outer name.text with
    | none =>
      simp only [hv]
      exact fail hl.fine name _
    | some v =>
      obtain ⟨a, ha⟩ := Scopes.exists_get?_of_resolve? _ outer name.text hv
      obtain ⟨hw, rfl⟩ := hm
      rw [show o.state.machine.store = o'.state.world.store from hw ▸ rfl] at ha
      simp only [hv]
      exact result hl.fine (hl.fine.sound.bindings a name.text v ha)

theorem global (hf : o.Fine T) (name : Token) :
    Keeps T [] (Watch.lift ((Expr.global name).eval 1)) o fun w v => v.Fits w := by
  refine lift_bind (machine hf) fun m o' hl hm => ?_
  cases hv : m.store.scopes.get? m.globals name.text with
  | none => exact fail hl.fine name _
  | some v =>
    obtain ⟨hw, rfl⟩ := hm
    rw [show o.state.machine.store = o'.state.world.store from hw ▸ rfl] at hv
    exact result hl.fine (hl.fine.sound.bindings _ name.text v hv)

theorem applied (hf : o.Fine T) (n : Native) (time : Float) (args : List Value) :
    Keeps T [] (Watch.lift (do
      match ← Run.found (n.apply (← Run.store) time (args.map .value)) with
      | .ok value => Pure.pure value
      | .error cause => Run.fail .blank cause)) o fun w v => v.Fits w := by
  refine lift_bind (store hf) fun s o₁ hl₁ _ => ?_
  refine lift_bind (found hl₁.fine _) fun r o₂ hl₂ hr => ?_
  cases r with
  | error cause => exact fail hl₂.fine _ _
  | ok v => exact result hl₂.fine ((Native.isConstant_of_apply hr.2).fits _)

theorem native (hf : o.Fine T) (n : Native) (args : List Value) :
    Keeps T [] (Watch.lift (Value.call 1 (.native n) args)) o fun w v => v.Fits w := by
  have hnow : Keeps T [] (Watch.lift Run.now) o fun _ _ => True :=
    lift_same hf rfl rfl rfl rfl fun _ _ => trivial
  rw [Value.call]
  split
  · exact lift_bind hnow fun time o₁ hl₁ _ => applied hl₁.fine n time args
  · exact applied hf n 0 args

theorem addHolder (hf : o.Fine T) :
    Keeps T [] (Watch.lift (Run.onStore (·.addHolder))) o fun w _ => ∃ holders,
      w = { o.state.world with store := { o.state.world.store with holders } } := by
  refine lift hf rfl rfl rfl (hf.sound.of_eq rfl rfl ?_ hf.sound.members hf.sound.methods)
    (World.grows_of_eq rfl rfl) (.of_scopes_eq rfl) fun _ _ => ⟨_, rfl⟩
  intro fs hfs x v hv
  rcases Array.mem_push.1 hfs with hfs | rfl
  · exact hf.sound.fields fs hfs x v hv
  · exact absurd hv nofun

theorem setProperty (hf : o.Fine T) (id : Nat) (name : Token) {v : Value}
    (hv : v.Fits o.state.world) :
    Keeps T [] (Watch.lift (Run.setProperty id name v)) o fun _ _ => True := by
  refine lift hf rfl rfl rfl (hf.sound.of_eq rfl rfl ?_ hf.sound.members hf.sound.methods)
    (World.grows_of_eq rfl rfl) (.of_scopes_eq rfl) fun _ _ => trivial
  intro fs hfs x u hu
  obtain ⟨j, hj⟩ := Array.mem_iff_getElem?.1 hfs
  rw [show (o.state.machine.store.setField id name.text v).holders =
      o.state.machine.store.holders.modify id (·.insert name.text v) from rfl,
    Array.getElem?_modify] at hj
  split at hj
  · obtain ⟨old, hold, rfl⟩ := Option.map_eq_some_iff.1 hj
    rw [NameMap.get?_insert] at hu
    split at hu
    · obtain rfl := Option.some.inj hu
      exact hv
    · exact hf.sound.fields old (Array.mem_of_getElem? hold) x u hu
  · exact hf.sound.fields fs (Array.mem_of_getElem? hj) x u hu

theorem log (hf : o.Fine T) (level : Level) (message : String) (attrs : List (String × Literal))
   {Q : World → Unit → Prop} (hq : Q o.state.world ()) :
    Keeps T [] (Watch.lift (Run.log level message attrs)) o Q :=
  lift_same hf rfl rfl rfl rfl fun _ _ => hq

theorem declareEnum (hf : o.Fine T) (ha : o.state.world.Activates T P o.state.machine.current)
    {name : Token} (hp : P.Permits [name.text]) (elements : List Token) :
    Keeps T [name.text] (Watch.lift (Run.declareEnum name elements)) o
      fun w _ => w.Binds o.state.machine.current name.text := by
  have hnone : Keeps T [name.text] (Watch.lift (Run.define name.text .none)) o
      fun w _ => w.Binds o.state.machine.current name.text := define hf ha hp trivial
  refine (hnone.lift_followed (M := [name.text]) fun _ o₁ hl₁ _ => ?_).weaken (by simp)
  have hadd : Keeps T [] (Watch.lift (Run.onStore (·.addEnum ⟨name.text, elements.map (·.text)⟩)))
      o₁ fun _ _ => True :=
    lift hl₁.fine rfl rfl rfl (hl₁.fine.sound.of_eq rfl rfl hl₁.fine.sound.fields
      hl₁.fine.sound.members hl₁.fine.sound.methods) (World.grows_of_eq rfl rfl)
      (.of_scopes_eq rfl) fun _ _ => trivial
  refine lift_bind hadd fun type o₂ hl₂ _ => ?_
  have hl := hl₁.trans hl₂
  have htype : Keeps T [name.text] (Watch.lift (Run.define name.text (.type type))) o₂
      fun w _ => w.Binds o₂.state.machine.current name.text :=
    define hl₂.fine (hl.activates ha) hp trivial
  refine htype.lift_followed fun _ o₃ hl₃ hb => ?_
  rw [hl.current] at hb
  exact log hl₃.fine _ _ _ hb

theorem declareForm (hf : o.Fine T) (ha : o.state.world.Activates T P o.state.machine.current)
    {name : Token} (hp : P.Permits [name.text]) {members : NameMap Value}
    (hm : ∀ x v, members.get? x = some v → v.Fits o.state.world) :
    Keeps T [name.text] (Watch.lift (Run.declareForm name members)) o
      fun w _ => w.Binds o.state.machine.current name.text := by
  have hadd : Keeps T [] (Watch.lift (Run.onStore (·.addForm ⟨name.text, members⟩))) o
      fun _ _ => True := by
    refine lift hf rfl rfl rfl (hf.sound.of_eq rfl rfl hf.sound.fields ?_ hf.sound.methods)
      (World.grows_of_eq rfl rfl) (.of_scopes_eq rfl) fun _ _ => trivial
    intro t ht x v hv
    rcases Array.mem_push.1 ht with ht | rfl
    · exact hf.sound.members t ht x v hv
    · exact hm x v hv
  refine lift_bind hadd fun type o₁ hl₁ _ => ?_
  have htype : Keeps T [name.text] (Watch.lift (Run.define name.text (.type type))) o₁
      fun w _ => w.Binds o₁.state.machine.current name.text :=
    define hl₁.fine (hl₁.activates ha) hp trivial
  refine htype.lift_followed fun _ o₂ hl₂ hb => ?_
  rw [hl₁.current] at hb
  exact log hl₂.fine _ _ _ hb

theorem enterScope (hf : o.Fine T) (hd : P.defining = none)
    (ha : o.state.world.Activates T P o.state.machine.current) (names : List String) :
    Keeps T [] (Watch.enterScope (P.enter names).regions) o fun w scope =>
      o.state.world.scopes.size ≤ scope ∧ w.Occupies T (P.enter names) scope := by
  obtain ⟨hsound, hact⟩ := hf.sound.openScope (P := P.enter names) rfl hd ha
    (fun _ hb => absurd hb List.not_mem_nil) (fun _ hb => absurd hb List.not_mem_nil)
    fun _ hx => absurd hx List.not_mem_nil
  have hgrows := o.state.world.grows_openScope o.state.machine.current (P.enter names).regions []
  have hframes := o.state.world.frames_openScope (i := o.state.machine.current) (N := [])
    o.state.machine.current (P.enter names).regions []
  have hempty : ∀ x, ¬(o.state.world.openScope o.state.machine.current (P.enter names).regions
      []).Binds o.state.world.scopes.size x :=
    fun x hb => absurd (World.mem_of_binds_openScope hb) List.not_mem_nil
  refine of_run rfl ⟨⟨hsound, hf.past⟩, hgrows, hframes, rfl⟩ fun scope hs => ?_
  obtain rfl := Except.ok.inj hs
  exact ⟨le_refl _, hact, fun _ _ _ x hb => absurd hb (hempty x)⟩

/-- A scope for a call: the parameters are bound in it before the body begins. -/
theorem enterCall (hf : o.Fine T) {closure : Closure} {args : List Value}
    (hc : closure.Fits T o.state.world ⟨P, true⟩) (hargs : ∀ v ∈ args, v.Fits o.state.world)
    (hlen : args.length = closure.arity) :
    Keeps T [] (Watch.enterCall (P.operation closure.declaration).regions closure args) o
      fun w scope => o.state.world.scopes.size ≤ scope ∧
        w.Occupies T ((P.operation closure.declaration).after
          (closure.declaration.params.map (·.text))) scope := by
  have hnames : ((closure.declaration.params.map (·.text)).zip args).map Prod.fst =
      closure.declaration.params.map (·.text) := by
    rw [List.map_fst_zip]
    rw [List.length_map, hlen]
    exact le_refl _
  obtain ⟨hsound, hact⟩ := hf.sound.openScope
    (P := (P.operation closure.declaration).after (closure.declaration.params.map (·.text)))
    rfl hc.defining hc.activates
    (fun b hb => hargs b.2 (List.of_mem_zip hb).2)
    (fun b hb => List.mem_append_left _ (List.of_mem_zip hb).1)
    fun x hx => by
      rw [hnames]
      exact hx
  have hworld := World.store_defineAll (o.state.world.enter closure.scope
    (P.operation closure.declaration).regions) o.state.world.scopes.size
    ((closure.declaration.params.map (·.text)).zip args)
  have hgrows := World.grows_openScope o.state.world closure.scope
    (P.operation closure.declaration).regions ((closure.declaration.params.map (·.text)).zip args)
  have hframes := o.state.world.frames_openScope (i := o.state.machine.current) (N := [])
    closure.scope (P.operation closure.declaration).regions
    ((closure.declaration.params.map (·.text)).zip args)
  have hbound : ∀ x, (o.state.world.openScope closure.scope
      (P.operation closure.declaration).regions
      ((closure.declaration.params.map (·.text)).zip args)).Binds o.state.world.scopes.size x →
      x ∈ closure.declaration.params.map (·.text) := by
    intro x hb
    rw [← hnames]
    exact World.mem_of_binds_openScope hb
  rw [Place.regions_after] at hsound hact
  rw [World.openScope, hworld] at hsound hact hgrows hframes hbound
  refine of_run rfl ⟨⟨hsound, hf.past⟩, hgrows, hframes, rfl⟩ fun scope hs => ?_
  obtain rfl := Except.ok.inj hs
  refine ⟨le_refl _, hact, fun _ => ?_⟩
  rintro _ ⟨⟩ x hb
  refine ⟨hbound x hb, fun hdef => ?_⟩
  exact absurd (hc.defining.symm.trans hdef) nofun

theorem declareOperation (hf : o.Fine T) (hd : P.defining = none)
    (ha : o.state.world.Activates T P o.state.machine.current) {op : Operation}
    (hp : P.Permits [op.name.text]) (hv : ∀ v ∈ op.visits (P.after [op.name.text]), T.visits v) :
    Keeps T [op.name.text] (Watch.declareOperation (P.after [op.name.text]) op) o
      fun w _ => w.Binds o.state.machine.current op.name.text := by
  obtain ⟨hsound, hgrows⟩ := hf.sound.declareOperation hd ha hp hv
  have hframes := World.frames_declareOperation o.state.world o.state.machine.current op
    (P.after [op.name.text])
  refine of_run rfl ⟨⟨hsound, hf.past⟩, hgrows, hframes, rfl⟩ fun _ _ => ?_
  exact World.binds_define (w := World.addClosure ..) ha.1 _ _

theorem bindSelf (hf : o.Fine T) {closure : Closure} {v : Value}
    (hc : closure.Fits T o.state.world ⟨P, false⟩) (hv : v.Fits o.state.world) :
    Keeps T [] (Watch.bindSelf P closure v) o fun w id =>
      (Value.operation id).Fits w ∧ w.origins id = ⟨P, true⟩ ∧
        ∃ scope, w.store.closures[id]? = some { closure with scope } := by
  obtain ⟨layer, outer, hl, hnames, hseen⟩ := hc.method rfl
  have ha : o.state.world.Activates T { P with layers := outer } closure.scope := by
    have h := hc.activates
    rwa [show (Origin.mk P false).around = { P with layers := outer } by
      simp [Origin.around, show P.layers = layer :: outer from hl]] at h
  have hfits : ∀ b ∈ [(selfName, v)], b.2.Fits o.state.world := by simpa using hv
  have hnamed : ∀ b ∈ [(selfName, v)], b.1 ∈ layer.region.names := by simp [hnames]
  have hbound : ∀ x ∈ layer.seen, x ∈ [(selfName, v)].map Prod.fst := by simp [hseen]
  obtain ⟨hsound, hact⟩ := hf.sound.openScope hl hc.defining ha hfits hnamed hbound
  have hopen := o.state.world.grows_openScope closure.scope P.regions [(selfName, v)]
  have hfit : Closure.Fits T (o.state.world.openScope closure.scope P.regions [(selfName, v)])
      { closure with scope := o.state.world.scopes.size } ⟨P, true⟩ :=
    ⟨hc.visits, hc.defining, hact, nofun⟩
  have hadd := World.grows_addClosure
    (o.state.world.openScope closure.scope P.regions [(selfName, v)])
    { closure with scope := o.state.world.scopes.size } ⟨P, true⟩
  have hframes : o.state.world.Frames (World.addClosure
      (o.state.world.openScope closure.scope P.regions [(selfName, v)])
      { closure with scope := o.state.world.scopes.size } ⟨P, true⟩) o.state.machine.current [] :=
    o.state.world.frames_openScope closure.scope P.regions [(selfName, v)]
  refine of_run rfl ⟨⟨hsound.addClosure hfit, hf.past⟩, hopen.trans hadd, hframes, rfl⟩
    fun id hid => ?_
  obtain rfl := Except.ok.inj hid
  obtain ⟨hcallable, horigin, hget⟩ := World.addClosure_spec
    (o.state.world.openScope closure.scope P.regions [(selfName, v)])
    { closure with scope := o.state.world.scopes.size } P
  exact ⟨hcallable, horigin, o.state.world.scopes.size, hget⟩

end Keeps

theorem Store.methodRead?_eq_some {s : Store} {of : TypeRef} {id method : Nat} {x : String}
    (h : s.methodRead? of id x = some method) : ∃ t fields type c, of = .object t ∧
      s.fields? id = some fields ∧ fields.get? x = none ∧ s.objects[t]? = some type ∧
      type.methods.get? x = some method ∧ s.closures[method]? = some c := by
  cases of with
  | enum t => cases h
  | form t => cases h
  | object t =>
    cases hfields : s.fields? id with
    | none => simp [methodRead?, hfields] at h
    | some fields =>
      simp only [methodRead?, hfields] at h
      split at h
      · cases h
      · next hnone =>
        obtain ⟨hm, hlt⟩ := Option.filter_eq_some_iff.1 h
        obtain ⟨type, ht, hm⟩ := Option.bind_eq_some_iff.1 hm
        have hlt := of_decide_eq_true hlt
        exact ⟨t, fields, type, s.closures[method], rfl, rfl, by simpa using hnone, ht, hm,
          Array.getElem?_eq_getElem hlt⟩

theorem Store.methodRead?_of_method {s : Store} {t id method : Nat} {x : String}
    {fields : NameMap Value} {type : ObjectType} {c : Closure}
    (hfields : s.fields? id = some fields) (hnone : fields.get? x = none)
    (htype : s.objects[t]? = some type)
    (hmethod : type.methods.get? x = some method) (hc : s.closures[method]? = some c) :
    s.methodRead? (.object t) id x = some method := by
  simp only [methodRead?, hfields, hnone, htype, Option.bind_some, hmethod, Option.isSome_none,
    Bool.false_eq_true, if_false]
  exact Option.filter_eq_some_iff.2 ⟨rfl, decide_eq_true (Array.getElem?_eq_some_iff.1 hc).1⟩

theorem Run.run_store (m : Machine) : Run.store.run m = (.ok m.store, m) := rfl

theorem Run.run_pure (a : α) (m : Machine) : (pure a : Run α).run m = (.ok a, m) := rfl

theorem Run.getProperty_run {m : Machine} {t id method : Nat} {name : Token}
    {fields : NameMap Value} {type : ObjectType} {c : Closure}
    (hfields : m.store.fields? id = some fields) (hnone : fields.get? name.text = none)
    (htype : m.store.objects[t]? = some type) (hmethod : type.methods.get? name.text = some method)
    (hc : m.store.closures[method]? = some c) :
    (Run.getProperty (.object t) id name).run m =
      (.ok (.operation (m.store.bindSelf c (.holder (.object t) id)).2),
        { m with store := (m.store.bindSelf c (.holder (.object t) id)).1 }) := by
  rw [Run.getProperty, run_bind_eq, Run.run_store]
  simp only [hfields, Run.found]
  rw [run_bind_eq, Run.run_pure]
  simp only [hnone, htype]
  rw [run_bind_eq, Run.run_pure]
  simp only [hmethod, hc]
  rw [run_bind_eq, Run.run_pure]
  rfl

/-- Reading a method is binding it. -/
theorem Watch.getProperty_run {o : Observed} {t id method : Nat} {name : Token} {c : Closure}
    (hm : o.state.machine.store.methodRead? (.object t) id name.text = some method)
    (hrun : (Run.getProperty (.object t) id name).run o.state.machine =
      (.ok (.operation (o.state.machine.store.bindSelf c (.holder (.object t) id)).2),
        { o.state.machine with
          store := (o.state.machine.store.bindSelf c (.holder (.object t) id)).1 })) :
    (Watch.getProperty (.object t) id name).run o =
      (.ok (.operation (o.state.machine.store.bindSelf c (.holder (.object t) id)).2),
        ((Watch.bindSelf (o.state.origins method).place c (.holder (.object t) id)).run o).2) := by
  rw [Watch.getProperty, run_bind_eq, show Watch.state.run o = (.ok o.state, o) from rfl]
  simp only [hm]
  rw [run_bind_eq]
  simp only [Watch.lift, ExceptT.run_mk, hrun]
  rfl

theorem Watch.getProperty_run_of_none {o : Observed} {of : TypeRef} {id : Nat} {name : Token}
    (hm : o.state.machine.store.methodRead? of id name.text = none) :
    (Watch.getProperty of id name).run o = (Watch.lift (Run.getProperty of id name)).run o := by
  rw [Watch.getProperty, run_bind_eq, show Watch.state.run o = (.ok o.state, o) from rfl]
  simp only [hm, bind_pure]

theorem Watch.world_declareObject (o : Observed) (P : Place) (name : Token)
    (methods : List Operation) :
    ((Watch.declareObject P name methods).run o).2.state.world =
      o.state.world.declareObject o.state.machine.current name.text P methods := by
  have hstate : ((Watch.declareObject P name methods).run o).2.state =
      Labelled.labelMethods
        { o.state with machine := ((Run.declareObject name methods).run o.state.machine).2 } P
        o.state.machine.store.closures.size methods := rfl
  obtain ⟨hstore, -⟩ := World.store_addMethods
    (o.state.world.define o.state.machine.current name.text .none) o.state.machine.current P
    methods .empty nofun
  obtain ⟨horigins, hregions, hglobals⟩ := World.labels_addMethods
    { o.state with machine := ((Run.declareObject name methods).run o.state.machine).2 }
    (o.state.world.define o.state.machine.current name.text .none) o.state.machine.current P
    methods rfl rfl
  rw [hstate, Labelled.world, Labelled.machine_labelMethods]
  refine World.ext ?_ hglobals.symm hregions.symm horigins.symm
  change _ = Store.define (Store.addObject (World.store _) _).1 _ _ _
  rw [hstore]
  rfl

namespace Keeps

theorem property (hf : o.Fine T) {of : TypeRef} {id : Nat} {name : Token}
    (hm : o.state.machine.store.methodRead? of id name.text = none) :
    Keeps T [] (Watch.lift (Run.getProperty of id name)) o fun w v => v.Fits w := by
  refine lift_bind (store hf) fun s o₁ hl₁ ⟨hw₁, hs⟩ => ?_
  refine lift_bind (found hl₁.fine _) fun fields o₂ hl₂ ⟨hw₂, hfields⟩ => ?_
  have hw : o₂.state.world = o.state.world := hw₂.trans hw₁
  obtain rfl : s = o.state.machine.store := hs.trans (congrArg World.store hw₁)
  cases hx : fields.get? name.text with
  | some v =>
    refine result hl₂.fine ?_
    rw [hw]
    exact hf.sound.fields fields (Array.mem_of_getElem? hfields) name.text v hx
  | none =>
    cases of with
    | object t =>
      refine lift_bind (found hl₂.fine _) fun type o₃ hl₃ ⟨_, htype⟩ => ?_
      cases hmethod : type.methods.get? name.text with
      | none => exact fail hl₃.fine _ _
      | some method =>
        refine lift_bind (found hl₃.fine _) fun c o₄ hl₄ ⟨_, hc⟩ => ?_
        exact absurd (hm.symm.trans (Store.methodRead?_of_method hfields hx htype hmethod hc)) nofun
    | enum t =>
      refine lift_bind (found hl₂.fine _) fun type o₃ hl₃ _ => ?_
      cases name.literal.integer?.bind fun n => type.elementName? n.toInt with
      | some element => exact result hl₃.fine trivial
      | none =>
        cases type.ordinal? name.text with
        | some ordinal => exact result hl₃.fine trivial
        | none => exact fail hl₃.fine _ _
    | form t =>
      refine lift_bind (found hl₂.fine _) fun type o₃ hl₃ ⟨hw₃, htype⟩ => ?_
      cases hv : type.members.get? name.text with
      | none => exact fail hl₃.fine _ _
      | some v =>
        refine result hl₃.fine ?_
        rw [hw₃, hw]
        exact hf.sound.members type (Array.mem_of_getElem? htype) name.text v hv

theorem getProperty (hf : o.Fine T) (of : TypeRef) (id : Nat) (name : Token) :
    Keeps T [] (Watch.getProperty of id name) o fun w v => v.Fits w := by
  cases hm : o.state.machine.store.methodRead? of id name.text with
  | some method =>
    obtain ⟨t, fields, type, c, rfl, hfields, hnone, htype, hmethod, hc⟩ :=
      Store.methodRead?_eq_some hm
    have hrun := Run.getProperty_run hfields hnone htype hmethod hc
    have hfit := hf.sound.fits_method
      (hf.sound.methods type (Array.mem_of_getElem? htype) _ _ hmethod) hc
    obtain ⟨hl, hq⟩ := bindSelf hf hfit (v := .holder (.object t) id) trivial
    refine of_run (Watch.getProperty_run hm hrun) hl fun v hv => ?_
    obtain rfl := Except.ok.inj hv
    exact (hq _ rfl).1
  | none => exact of_run_eq (Watch.getProperty_run_of_none hm) (property hf hm)

theorem declareObject (hf : o.Fine T) (hd : P.defining = none)
    (ha : o.state.world.Activates T P o.state.machine.current) {name : Token}
    (hp : P.Permits [name.text]) {methods : List Operation}
    (hv : ∀ v ∈ Operation.visitsOfList (P.after [name.text]).object methods, T.visits v) :
    Keeps T [name.text] (Watch.declareObject (P.after [name.text]).object name methods) o
      fun w _ => w.Binds o.state.machine.current name.text := by
  obtain ⟨hsound, hgrows, hbinds⟩ := hf.sound.declareObject hd ha hp hv
  have hframes := o.state.world.frames_declareObject o.state.machine.current name.text
    (P.after [name.text]).object methods
  rw [← Watch.world_declareObject] at hsound hgrows hbinds hframes
  have hmachine := Erases.declareObject (P.after [name.text]).object name methods o
  refine ⟨⟨⟨hsound, hf.past⟩, hgrows, hframes, ?_⟩, fun _ _ => hbinds⟩
  exact congrArg (fun r => r.2.current) hmachine.symm

end Keeps

end Treescript
