import Treescript.Proofs.Reachability
import Treescript.Proofs.StrictFailures

/-!
# What a call leaves alone

A call is given a callee and arguments, and it finds the globals. All that it writes can be reached
from these, or is made in its course. So the scope that it is called from, and every scope and
holder that is out of its reach, is afterwards as it was.
-/

namespace Treescript

variable {A : Location → Prop}

structure Machine.Sealed (A : Location → Prop) (m : Machine) : Prop where
  store : m.store.Seals A
  globals : A (.scope m.globals)

/-- Names are looked up within the region, too. -/
structure Machine.Confined (A : Location → Prop) (m : Machine) : Prop extends m.Sealed A where
  current : A (.scope m.current)

structure Machine.Keeps (A : Location → Prop) (m m' : Machine) : Prop where
  store : m.store.Keeps A m'.store
  globals : m'.globals = m.globals
  current : m'.current = m.current

namespace Machine

variable {m m' m'' : Machine}

theorem Keeps.refl (h : m.store.Seals A) : m.Keeps A m := ⟨.refl h, rfl, rfl⟩

theorem Keeps.trans (h : m.Keeps A m') (h' : m'.Keeps A m'') : m.Keeps A m'' :=
  ⟨h.store.trans h'.store, h'.globals.trans h.globals, h'.current.trans h.current⟩

theorem Sealed.after (h : m.Sealed A) (hk : m.Keeps A m') : m'.Sealed A :=
  ⟨hk.store.seals, hk.globals ▸ h.globals⟩

theorem Confined.after (h : m.Confined A) (hk : m.Keeps A m') : m'.Confined A :=
  ⟨h.toSealed.after hk, hk.current ▸ h.current⟩

theorem Confined.target? (h : m.Confined A) {hops : Option Nat} {i : ScopeId}
    (hi : m.target? hops = some i) : A (.scope i) := by
  cases hops with
  | none =>
    cases hi
    exact h.globals
  | some hops => exact h.store.ancestor? hops h.current hi

/-- A new scope is in the region, and so is what it is for. -/
theorem Sealed.enter (h : m.Sealed A) {outer : ScopeId} (ho : A (.scope outer))
    {bindings : List (String × Value)} (hv : ∀ b ∈ bindings, b.2.In A) :
    m.store.Keeps A (m.enter outer bindings).store ∧ (m.enter outer bindings).Confined A := by
  have hscope : A (.scope m.store.scopes.size) := h.store.fresh _ (Nat.le_refl _)
  have hentered : m.store.Keeps A (m.store.enterScope outer).1 := .enterScope h.store ho
  have hstore : m.store.Keeps A (m.enter outer bindings).store :=
    hentered.trans (.defineAll hentered.seals hscope hv)
  exact ⟨hstore, ⟨hstore.seals, h.globals⟩, hscope⟩

end Machine

/-- From this machine the run keeps to the region, however it ends, and its results have a
property. -/
def Run.Keeps {α : Type} (A : Location → Prop) (run : Run α) (m : Machine) (Q : α → Prop) : Prop :=
  m.Keeps A (run.run m).2 ∧ ∀ a, (run.run m).1 = .ok a → Q a

namespace Run.Keeps

variable {α β : Type} {run : Run α} {m m' : Machine} {Q : α → Prop} {S : β → Prop}

theorem pure {a : α} (hm : m.store.Seals A) (h : Q a) : Run.Keeps A (Pure.pure a) m Q := by
  refine ⟨.refl hm, ?_⟩
  rintro _ ⟨⟩
  exact h

theorem normal (hm : m.store.Seals A) :
    Run.Keeps A (Pure.pure Completion.normal) m fun c => ∀ v, c = .returned v → v.In A :=
  pure hm nofun

theorem stopped {stop : Stop} (hk : m.Keeps A m') (h : run.run m = (.error stop, m')) :
    Run.Keeps A run m Q := by
  rw [Run.Keeps, h]
  exact ⟨hk, nofun⟩

theorem throw {stop : Stop} (hm : m.store.Seals A) :
    Run.Keeps A (MonadExcept.throw stop) m Q :=
  stopped (.refl hm) rfl

theorem of_run_eq {run' : Run α} (hk : m.Keeps A m') (h : run.run m = run'.run m')
    (h' : Run.Keeps A run' m' Q) : Run.Keeps A run m Q := by
  rw [Run.Keeps, h]
  exact ⟨hk.trans h'.1, h'.2⟩

theorem step {prim : Run β} {k : β → Run α} {b : β} (h : prim.run m = (.ok b, m'))
    (hm : m.Keeps A m') (hk : Run.Keeps A (k b) m' Q) : Run.Keeps A (prim >>= k) m Q :=
  of_run_eq hm (by rw [run_bind_eq, h]) hk

theorem bind {k : α → Run β} (h : Run.Keeps A run m Q)
    (hk : ∀ a m', m.Keeps A m' → Q a → Run.Keeps A (k a) m' S) :
    Run.Keeps A (run >>= k) m S := by
  obtain ⟨hm, hq⟩ := h
  rw [Run.Keeps, run_bind_eq]
  generalize run.run m = end_ at hm hq
  obtain ⟨stop | a, m'⟩ := end_
  · exact ⟨hm, nofun⟩
  · obtain ⟨hm', hs⟩ := hk a m' hm (hq a rfl)
    exact ⟨hm.trans hm', hs⟩

theorem found {a? : Option α} {k : α → Run β} (hm : m.store.Seals A)
    (hk : ∀ a, a? = some a → Run.Keeps A (k a) m S) : Run.Keeps A (Run.found a? >>= k) m S := by
  cases a? with
  | none => exact throw hm
  | some a => exact hk a rfl

theorem store {k : Store → Run β} (h : Run.Keeps A (k m.store) m S) :
    Run.Keeps A (Run.store >>= k) m S := h

theorem get {k : Machine → Run β} (h : Run.Keeps A (k m) m S) :
    Run.Keeps A (MonadState.get >>= k) m S := h

theorem onStore {f : Store → Store × α} (h : m.store.Keeps A (f m.store).1)
    (hq : Q (f m.store).2) : Run.Keeps A (Run.onStore f) m Q := by
  refine ⟨⟨h, rfl, rfl⟩, ?_⟩
  rintro _ ⟨⟩
  exact hq

theorem define (hm : m.Confined A) (x : String) {v : Value} (hv : v.In A) :
    Run.Keeps A (Run.define x v) m fun _ => True :=
  ⟨⟨.define hm.store hm.current x hv, rfl, rfl⟩, fun _ _ => trivial⟩

theorem emit (hm : m.store.Seals A) (e : Event) : Run.Keeps A (Run.emit e) m fun _ => True :=
  ⟨⟨.refl hm, rfl, rfl⟩, fun _ _ => trivial⟩

theorem setProperty (hm : m.store.Seals A) {id : Nat} (hid : A (.holder id)) (name : Token)
    {v : Value} (hv : v.In A) : Run.Keeps A (Run.setProperty id name v) m fun _ => True :=
  ⟨⟨.setField hm hid name.text hv, rfl, rfl⟩, fun _ _ => trivial⟩

/-- In whatever scope a run takes place, it comes back from there. -/
theorem within {scope : ScopeId} (h : Run.Keeps A run { m with current := scope } Q) :
    Run.Keeps A (Run.within scope run) m Q :=
  ⟨⟨h.1.store, h.1.globals, rfl⟩, h.2⟩

theorem locating (token : Token) (h : Run.Keeps A run m Q) :
    Run.Keeps A (Run.locating token run) m Q := by
  obtain ⟨hm, hq⟩ := h
  rw [Run.Keeps, Run.locating_run]
  generalize run.run m = end_ at hm hq
  obtain ⟨stop | a, m'⟩ := end_
  · exact ⟨hm, nofun⟩
  · exact ⟨hm, hq⟩

theorem lookup (hm : m.Confined A) (token : Token) (x : String) (hops : Option Nat) :
    Run.Keeps A (Run.lookup token x hops) m (Value.In A) := by
  rw [Run.Keeps, Run.lookup_run]
  cases hv : (m.target? hops).bind (m.store.scopes.get? · x) with
  | none => exact ⟨.refl hm.store, nofun⟩
  | some v =>
    refine ⟨.refl hm.store, ?_⟩
    rintro _ ⟨⟩
    obtain ⟨i, hi, hv⟩ := Option.bind_eq_some_iff.1 hv
    exact hm.store.bindings i x v (hm.target? hi) hv

theorem assign (hm : m.Confined A) (name : Token) (hops : Option Nat) {v : Value} (hv : v.In A) :
    Run.Keeps A (Run.assign name hops v) m (Value.In A) := by
  rw [Run.Keeps, Run.assign_run]
  cases hi : (m.target? hops).filter fun i => (m.store.scopes.get? i name.text).isSome with
  | none => exact ⟨.refl hm.store, nofun⟩
  | some i =>
    have htarget := hm.target? (Option.filter_eq_some_iff.1 hi).1
    refine ⟨⟨.define hm.store htarget name.text hv, rfl, rfl⟩, ?_⟩
    rintro _ ⟨⟩
    exact hv

theorem operator (hm : m.store.Seals A) (token : Token) {result : Except Cause Value}
    (hok : ∀ v, result = .ok v → v.IsConstant) :
    Run.Keeps A (Run.operator token result) m (Value.In A) := by
  cases result with
  | ok v => exact pure hm (hok v rfl).isIn
  | error cause => exact throw hm

theorem getProperty (hm : m.store.Seals A) {of : TypeRef} {id : Nat}
    (h : (Value.holder of id).In A) (name : Token) :
    Run.Keeps A (Run.getProperty of id name) m (Value.In A) := by
  obtain ⟨hid, hof⟩ := Value.in_holder.1 h
  refine store (found hm fun fields hfields => ?_)
  split
  · next v hv => exact pure hm (hm.fields id fields name.text v hid hfields hv)
  · cases of with
    | object t =>
      refine found hm fun type htype => ?_
      split
      · exact throw hm
      · next method hmethod =>
        have hoperation := hm.methods t type name.text method hof htype hmethod
        refine found hm fun closure hclosure => ?_
        have hbound : m.store.Keeps A (m.store.bindSelf closure (.holder (.object t) id)).1 :=
          .bindSelf hm (hm.closures method closure hoperation hclosure) h
        refine (onStore (Q := fun id => A (.operation id)) hbound ?_).bind fun bound m' hk hb =>
          pure hk.store.seals (Value.in_operation.2 hb)
        exact hm.fresh _ (Nat.le_refl _)
    | «enum» t =>
      refine found hm fun type _ => ?_
      split
      · exact pure hm (Value.IsConstant.isIn trivial)
      · split
        · exact pure hm (Value.IsConstant.isIn trivial)
        · exact throw hm
    | form t =>
      refine found hm fun type htype => ?_
      split
      · next v hv => exact pure hm (hm.members t type name.text v hof htype hv)
      · exact throw hm

theorem native (hm : m.store.Seals A) (fuel : Nat) (n : Native) (args : List Value) :
    Run.Keeps A ((Value.native n).call (fuel + 1) args) m (Value.In A) := by
  have hrest : ∀ (time : Float) (m : Machine), m.store.Seals A → Run.Keeps A (do
      Run.operator .blank (← Run.found (n.apply (← Run.store) time (args.map .value)))) m
      (Value.In A) := by
    intro time m hm
    refine store (found hm fun result hresult => operator hm _ ?_)
    rintro v rfl
    exact Native.isConstant_of_apply hresult
  rw [Value.call]
  split
  · exact step rfl ⟨.refl hm, rfl, rfl⟩ (hrest _ _ hm)
  · exact hrest 0 m hm

theorem parent (hm : m.Confined A) (fuel : Nat) (name : Token) :
    Run.Keeps A ((Expr.parent name).eval (fuel + 1)) m (Value.In A) := by
  refine get ?_
  split
  · exact throw hm.store
  · next o ho =>
    split
    · next v hv =>
      exact pure hm.store (hm.store.resolve? o name.text (hm.store.outer _ _ hm.current ho) hv)
    · exact throw hm.store

theorem global (hm : m.Sealed A) (fuel : Nat) (name : Token) :
    Run.Keeps A ((Expr.global name).eval (fuel + 1)) m (Value.In A) := by
  refine get ?_
  split
  · next v hv => exact pure hm.store (hm.store.bindings m.globals name.text v hm.globals hv)
  · exact throw hm.store

theorem declareObject (hm : m.Confined A) (name : Token) (methods : List Operation) :
    Run.Keeps A (Run.declareObject name methods) m fun _ => True := by
  refine (define hm name.text Value.in_none).bind fun _ m₁ h₁ _ => get ?_
  have hm₁ := hm.after h₁
  obtain ⟨hkeeps, htable⟩ := Store.Keeps.addMethods hm₁.store hm₁.current methods
  refine (onStore (Q := fun table => ∀ x id, table.get? x = some id → A (.operation id)) hkeeps
    htable).bind fun table m₂ h₂ ht => ?_
  have hm₂ := hm₁.after h₂
  refine (onStore (Q := fun t => A (.type t)) (.addObject hm₂.store ht) ?_).bind
    fun t m₃ h₃ ht => ?_
  · exact hm₂.store.fresh _ (Nat.le_refl _)
  · exact (define (hm₂.after h₃) name.text (Value.in_type.2 ht)).bind fun _ m₄ h₄ _ =>
      emit h₄.store.seals _

theorem declareEnum (hm : m.Confined A) (name : Token) (elements : List Token) :
    Run.Keeps A (Run.declareEnum name elements) m fun _ => True := by
  refine (define hm name.text Value.in_none).bind fun _ m₁ h₁ _ => ?_
  have hm₁ := hm.after h₁
  refine (onStore (Q := fun t => A (.type t)) (.addEnum hm₁.store _) ?_).bind fun t m₂ h₂ ht => ?_
  · exact hm₁.store.fresh _ (Nat.le_refl _)
  · exact (define (hm₁.after h₂) name.text (Value.in_type.2 ht)).bind fun _ m₃ h₃ _ =>
      emit h₃.store.seals _

theorem declareForm (hm : m.Confined A) (name : Token) {members : NameMap Value}
    (hmembers : ∀ x v, members.get? x = some v → v.In A) :
    Run.Keeps A (Run.declareForm name members) m fun _ => True := by
  refine (onStore (Q := fun t => A (.type t)) (.addForm hm.store hmembers) ?_).bind
    fun t m₁ h₁ ht => ?_
  · exact hm.store.fresh _ (Nat.le_refl _)
  · exact (define (hm.after h₁) name.text (Value.in_type.2 ht)).bind fun _ m₂ h₂ _ =>
      emit h₂.store.seals _

end Run.Keeps

namespace Job

/-- What a job may begin with. A call takes place in the region wherever it is made from, and in its
course no program is run. -/
def Confined (A : Location → Prop) (m : Machine) : Job → Prop
  | invocation callee args => m.Sealed A ∧ callee.In A ∧ ∀ v ∈ args, v.In A
  | application closure args => m.Sealed A ∧ A (.scope closure.scope) ∧ ∀ v ∈ args, v.In A
  | members _ before => m.Confined A ∧ ∀ x v, before.get? x = some v → v.In A
  | expr _ | exprs _ | optional _ | stmt _ | stmts _ | arms _ | rounds .. => m.Confined A
  | program _ => False

/-- The values that the job ends with are in the region. -/
def Gives (A : Location → Prop) : (t : Job) → t.Result → Prop
  | expr _, v | optional _, v | invocation .., v | application .., v => Value.In A v
  | exprs _, vs => ∀ v ∈ (vs : List Value), v.In A
  | stmt _, c | stmts _, c | rounds .., c => ∀ v, c = Completion.returned v → v.In A
  | members .., vs => ∀ x v, NameMap.get? vs x = some v → v.In A
  | arms _, _ | program _, _ => True

/-- With this much fuel jobs keep to the region. -/
def AllKeep (A : Location → Prop) (fuel : Nat) : Prop :=
  ∀ t m, Job.Confined A m t → Run.Keeps A (t.run fuel) m (t.Gives A)

end Job

variable {fuel : Nat} {m : Machine}

theorem Expr.eval_keeps (ih : Job.AllKeep A fuel) (hm : m.Confined A) (e : Expr) :
    Run.Keeps A (e.eval (fuel + 1)) m (Value.In A) := by
  cases e with
  | hole => exact .throw hm.store
  | literal _ value => exact .pure hm.store (Value.isConstant_ofLiteral value).isIn
  | «variable» | self => exact .lookup hm ..
  | assign name value hops =>
    exact (ih (.expr value) m hm).bind fun v m₁ h₁ hv => .assign (hm.after h₁) name hops hv
  | unary operator right =>
    refine (ih (.expr right) m hm).bind fun v m₁ h₁ _ => .operator h₁.store.seals operator ?_
    exact fun _ => Operator.isConstant_of_prefixed
  | binary left operator right =>
    refine (ih (.expr left) m hm).bind fun l m₁ h₁ _ => ?_
    refine (ih (.expr right) m₁ (hm.after h₁)).bind fun r m₂ h₂ _ => .store ?_
    exact .operator h₂.store.seals operator fun _ => Operator.isConstant_of_between
  | logical left operator right =>
    refine (ih (.expr left) m hm).bind fun l m₁ h₁ hl => ?_
    split
    · exact .pure h₁.store.seals hl
    · exact ih (.expr right) m₁ (hm.after h₁)
  | count operator target name hops =>
    refine (ih (.expr target) m hm).bind fun v m₁ h₁ _ => ?_
    refine (Run.Keeps.operator h₁.store.seals operator fun _ => Operator.isConstant_of_counted).bind
      fun v m₂ h₂ hv => ?_
    exact .assign ((hm.after h₁).after h₂) name hops hv
  | call callee paren args =>
    refine (ih (.expr callee) m hm).bind fun callee m₁ h₁ hcallee => ?_
    have hm₁ := hm.after h₁
    refine (ih (.exprs args) m₁ hm₁).bind fun args m₂ h₂ hargs => .store ?_
    have hm₂ := hm₁.after h₂
    split
    · exact .throw hm₂.store
    · split
      · exact .throw hm₂.store
      · exact (ih (.invocation callee args) m₂ ⟨hm₂.toSealed, hcallee, hargs⟩).locating paren
  | group _ inner => exact ih (.expr inner) m hm
  | get object name =>
    refine (ih (.expr object) m hm).bind fun target m₁ h₁ htarget => ?_
    cases target with
    | holder of id => exact .getProperty h₁.store.seals htarget name
    | _ => exact .throw h₁.store.seals
  | set object name value =>
    refine (ih (.expr value) m hm).bind fun v m₁ h₁ hv => ?_
    refine (ih (.expr object) m₁ (hm.after h₁)).bind fun target m₂ h₂ htarget => ?_
    cases target with
    | holder of id =>
      have hid := (Value.in_holder.1 htarget).1
      exact (Run.Keeps.setProperty h₂.store.seals hid name hv).bind fun _ m₃ h₃ _ =>
        .pure h₃.store.seals hv
    | _ => exact .throw h₂.store.seals
  | parent name => exact .parent hm fuel name
  | global name => exact .global hm.toSealed fuel name

theorem Value.call_keeps (ih : Job.AllKeep A fuel) (hm : m.Sealed A) {callee : Value}
    (hcallee : callee.In A) {args : List Value} (hargs : ∀ v ∈ args, v.In A) :
    Run.Keeps A (callee.call (fuel + 1) args) m (Value.In A) := by
  cases callee with
  | operation id =>
    refine .store (.found hm.store fun closure hclosure => ?_)
    have hscope := hm.store.closures id closure (Value.in_operation.1 hcallee) hclosure
    exact ih (.application closure args) m ⟨hm, hscope, hargs⟩
  | native n => exact .native hm.store fuel n args
  | type t =>
    have htype := Value.in_type.1 hcallee
    have hmade : m.Keeps A m.addHolder := ⟨.addHolder hm.store, rfl, rfl⟩
    have hin : (Value.holder t m.store.holders.size).In A :=
      Value.in_holder.2 ⟨hm.store.fresh _ (Nat.le_refl _), htype⟩
    have hrun := Value.call_type_run fuel t args m
    dsimp only at hrun
    split at hrun
    · exact .of_run_eq hmade hrun (.pure hmade.store.seals hin)
    · next pilot hpilot =>
      split at hrun
      · exact .stopped hmade hrun
      · next method hmethod =>
        have hscope := hm.store.closures pilot method (hm.store.pilot? htype hpilot) hmethod
        have hbound : m.addHolder.Keeps A (m.addHolder.bindSelf method _) :=
          ⟨.bindSelf hmade.store.seals hscope hin, rfl, rfl⟩
        have hk := hmade.trans hbound
        refine .of_run_eq hk hrun ?_
        -- the pilot runs inside the new scope in which `self` is bound
        refine (ih (.application (method.bound m) args) _
          ⟨hm.after hk, hm.store.fresh _ (Nat.le_refl _), hargs⟩).bind fun _ m' h' _ => ?_
        exact .pure h'.store.seals hin
  | none | bool | int | float | text | holder => exact .throw hm.store

theorem Closure.call_keeps (ih : Job.AllKeep A fuel) (hm : m.Sealed A) {closure : Closure}
    (hscope : A (.scope closure.scope)) {args : List Value} (hargs : ∀ v ∈ args, v.In A) :
    Run.Keeps A (closure.call (fuel + 1) args) m (Value.In A) := by
  have hbindings : ∀ b ∈ (closure.declaration.params.map (·.text)).zip args, b.2.In A :=
    fun b hb => hargs b.2 (List.of_mem_zip hb).2
  obtain ⟨hstore, hentered⟩ := hm.enter hscope hbindings
  have hopened : m.Keeps A { m.enter closure.scope _ with current := m.current } :=
    ⟨hstore, rfl, rfl⟩
  refine .step rfl hopened ?_
  refine (Run.Keeps.within (ih (.stmts closure.declaration.body) (m.enter closure.scope _)
    hentered)).bind fun completion m₁ h₁ hreturned => .store ?_
  dsimp only
  split
  · next self _ hself => exact .pure h₁.store.seals (h₁.store.seals.bindings _ _ self hscope hself)
  · next v _ => exact .pure h₁.store.seals (hreturned v rfl)
  · exact .pure h₁.store.seals Value.in_none

theorem Stmt.exec_keeps (ih : Job.AllKeep A fuel) (hm : m.Confined A) (s : Stmt) :
    Run.Keeps A (s.exec (fuel + 1)) m fun c => ∀ v, c = .returned v → v.In A := by
  cases s with
  | hole => exact .throw hm.store
  | arm a => exact .throw hm.store
  | expression _ value =>
    exact (ih (.expr value) m hm).bind fun _ m₁ h₁ _ => .normal h₁.store.seals
  | print _ value =>
    refine (ih (.expr value) m hm).bind fun _ m₁ h₁ _ => .store ?_
    exact (Run.Keeps.emit h₁.store.seals _).bind fun _ m₂ h₂ _ => .normal h₂.store.seals
  | define d =>
    refine (ih (.optional d.initial) m hm).bind fun v m₁ h₁ hv => ?_
    exact (Run.Keeps.define (hm.after h₁) _ hv).bind fun _ m₂ h₂ _ => .normal h₂.store.seals
  | block _ body =>
    obtain ⟨hstore, hentered⟩ := hm.toSealed.enter hm.current (List.forall_mem_nil _)
    have hopened : m.Keeps A { m.enter m.current [] with current := m.current } :=
      ⟨hstore, rfl, rfl⟩
    refine .get (.step rfl hopened ?_)
    exact .within (ih (.stmts body) (m.enter m.current []) hentered)
  | operation declaration =>
    refine .get ((Run.Keeps.onStore (Q := fun id => A (.operation id))
      (.addClosure hm.store hm.current) (hm.store.fresh _ (Nat.le_refl _))).bind
      fun id m₁ h₁ hid => ?_)
    exact (Run.Keeps.define (hm.after h₁) _ (Value.in_operation.2 hid)).bind fun _ m₂ h₂ _ =>
      .normal h₂.store.seals
  | conditional _ condition branch arms otherwise =>
    refine (ih (.expr condition) m hm).bind fun v m₁ h₁ _ => ?_
    have hm₁ := hm.after h₁
    split
    · exact ih (.stmt branch) m₁ hm₁
    · refine (ih (.arms arms) m₁ hm₁).bind fun chosen m₂ h₂ _ => ?_
      have hm₂ := hm₁.after h₂
      match chosen, otherwise with
      | some chosen, _ => exact ih (.stmt chosen) m₂ hm₂
      | none, some last => exact ih (.stmt last) m₂ hm₂
      | none, none => exact .normal hm₂.store
  | loop _ condition body => exact ih (.rounds condition body) m hm
  | «return» _ value =>
    refine (ih (.optional value) m hm).bind fun v m₁ h₁ hv => .pure h₁.store.seals ?_
    rintro _ ⟨⟩
    exact hv
  | object _ name methods =>
    exact (Run.Keeps.declareObject hm name methods).bind fun _ m₁ h₁ _ =>
      .normal h₁.store.seals
  | «enum» _ name elements =>
    exact (Run.Keeps.declareEnum hm name elements).bind fun _ m₁ h₁ _ => .normal h₁.store.seals
  | form _ name members =>
    refine (Run.Keeps.define hm name.text Value.in_none).bind fun _ m₁ h₁ _ => ?_
    have hm₁ := hm.after h₁
    refine (ih (.members members .empty) m₁ ⟨hm₁, nofun⟩).bind fun vs m₂ h₂ hvs => ?_
    exact (Run.Keeps.declareForm (hm₁.after h₂) name hvs).bind fun _ m₃ h₃ _ =>
      .normal h₃.store.seals

theorem Job.allKeep_succ (ih : Job.AllKeep A fuel) : Job.AllKeep A (fuel + 1) := by
  intro t m h
  match t with
  | .expr e => exact e.eval_keeps ih h
  | .invocation callee args => exact Value.call_keeps ih h.1 h.2.1 h.2.2
  | .application closure args => exact Closure.call_keeps ih h.1 h.2.1 h.2.2
  | .stmt s => exact s.exec_keeps ih h
  | .exprs [] => exact .pure h.store (List.forall_mem_nil _)
  | .exprs (e :: es) =>
    refine (ih (.expr e) m h).bind fun v m₁ h₁ hv => ?_
    refine (ih (.exprs es) m₁ (h.after h₁)).bind fun vs m₂ h₂ hvs => .pure h₂.store.seals ?_
    exact List.forall_mem_cons.2 ⟨hv, hvs⟩
  | .optional none => exact .pure h.store Value.in_none
  | .optional (some e) => exact ih (.expr e) m h
  | .stmts [] => exact .normal h.store
  | .stmts (s :: ss) =>
    refine (ih (.stmt s) m h).bind fun completion m₁ h₁ hend => ?_
    cases completion with
    | normal => exact ih (.stmts ss) m₁ (h.after h₁)
    | returned v => exact .pure h₁.store.seals hend
  | .arms [] => exact .pure h.store trivial
  | .arms (⟨_, condition, branch⟩ :: rest) =>
    refine (ih (.expr condition) m h).bind fun v m₁ h₁ _ => ?_
    refine (ih (.arms rest) m₁ (h.after h₁)).bind fun later m₂ h₂ _ => ?_
    cases v.isTruthy with
    | false => exact .pure h₂.store.seals trivial
    | true => cases branch <;> exact .pure h₂.store.seals trivial
  | .rounds condition body =>
    refine (ih (.expr condition) m h).bind fun v m₁ h₁ _ => ?_
    have hm₁ := h.after h₁
    split
    · refine (ih (.stmt body) m₁ hm₁).bind fun completion m₂ h₂ hend => ?_
      cases completion with
      | normal => exact ih (.rounds condition body) m₂ (hm₁.after h₂)
      | returned v => exact .pure h₂.store.seals hend
    · exact .normal hm₁.store
  | .members [] before => exact .pure h.1.store h.2
  | .members (⟨_, name, initial⟩ :: rest) before =>
    refine (ih (.optional initial) m h.1).bind fun v m₁ h₁ hv => ?_
    have hm₁ := h.1.after h₁
    refine (Run.Keeps.define hm₁ name.text hv).bind fun _ m₂ h₂ _ => ?_
    refine ih (.members rest (before.insert name.text v)) m₂ ⟨hm₁.after h₂, fun x w hw => ?_⟩
    rw [NameMap.get?_insert] at hw
    split at hw
    · cases hw
      exact hv
    · exact h.2 x w hw

theorem Job.allKeep (fuel : Nat) : Job.AllKeep A fuel := by
  induction fuel with
  | zero =>
    intro t m h
    cases t with
    | expr | exprs | optional | stmt | stmts | arms | rounds => exact .throw h.store
    | invocation | application => exact .throw h.1.store
    | members => exact .throw h.1.store
    | program => exact h.elim
  | succ fuel ih => exact allKeep_succ ih

/-- Where a call starts from. -/
inductive Machine.Roots (m : Machine) (callee : Value) (args : List Value) : Location → Prop
  | callee {l : Location} (h : callee.Mentions l) : Roots m callee args l
  | arg {v : Value} {l : Location} (hv : v ∈ args) (h : v.Mentions l) : Roots m callee args l
  | globals : Roots m callee args (.scope m.globals)

/-- What a call can come to on a machine as it is. -/
def Machine.InReach (m : Machine) (callee : Value) (args : List Value) (l : Location) : Prop :=
  m.store.Reaches (m.Roots callee args) l

/-- A call keeps to what it can reach and to what it makes. -/
theorem Machine.call_keeps_reach (m : Machine) (fuel : Nat) (callee : Value) (args : List Value) :
    m.Keeps (fun l => m.InReach callee args l ∨ l.IsNew m.store)
      ((callee.call fuel args).run m).2 := by
  let A : Location → Prop := fun l => m.InReach callee args l ∨ l.IsNew m.store
  have hm : m.Sealed A := ⟨m.store.seals_reaches _, .inl (.root .globals)⟩
  have hcallee : callee.In A := fun l hl => .inl (.root (.callee hl))
  have hargs : ∀ v ∈ args, v.In A := fun v hv l hl => .inl (.root (.arg hv hl))
  exact (Job.allKeep fuel (.invocation callee args) m ⟨hm, hcallee, hargs⟩).1

theorem Scopes.lt_of_ancestor? {s : Scopes Value} {hops : Nat} {inner i : ScopeId}
    (h : s.ancestor? hops inner = some i) (hi : i < s.size) : inner < s.size := by
  cases hops with
  | zero =>
    cases h
    exact hi
  | succ hops =>
    obtain ⟨o, ho, -⟩ := Option.bind_eq_some_iff.1 h
    obtain ⟨scope, hscope, -⟩ := Option.bind_eq_some_iff.1 ho
    exact (Array.getElem?_eq_some_iff.1 hscope).1

/-- However a call ends, the caller is back in its own scope. All scopes and holders that were there
and that the call could not reach are as they were, the variables of the caller among them. -/
theorem Machine.call_frame (m : Machine) (fuel : Nat) (callee : Value) (args : List Value) :
    let m' := ((callee.call fuel args).run m).2
    m'.current = m.current ∧
    (∀ i < m.store.scopes.size, ¬m.InReach callee args (.scope i) →
      m'.store.scopes.cells[i]? = m.store.scopes.cells[i]?) ∧
    (∀ id < m.store.holders.size, ¬m.InReach callee args (.holder id) →
      m'.store.holders[id]? = m.store.holders[id]?) ∧
    ∀ hops i, m.store.scopes.ancestor? hops m.current = some i → i < m.store.scopes.size →
      ¬m.InReach callee args (.scope i) → ∀ x,
        m'.store.scopes.getAt? hops m'.current x = m.store.scopes.getAt? hops m.current x := by
  intro m'
  have hkeeps := m.call_keeps_reach fuel callee args
  have hscopes : ∀ i < m.store.scopes.size, ¬m.InReach callee args (.scope i) →
      m'.store.scopes.cells[i]? = m.store.scopes.cells[i]? := by
    intro i hi hreach
    refine hkeeps.store.scopes i hi ?_
    rintro (h | h)
    · exact hreach h
    · exact Nat.not_lt.2 h hi
  refine ⟨hkeeps.current, hscopes, ?_, ?_⟩
  · intro id hid hreach
    refine hkeeps.store.holders id hid ?_
    rintro (h | h)
    · exact hreach h
    · exact Nat.not_lt.2 h hid
  · intro hops i hi hlt hreach x
    have hancestor := Scopes.ancestor?_eq_of_outer? hkeeps.store.outer hops
      (Scopes.lt_of_ancestor? hi hlt)
    simp only [Scopes.getAt?, m', hkeeps.current, hancestor, hi, Option.bind_some, Scopes.get?]
    rw [hscopes i hlt hreach]

theorem Store.Seals.of_reaches {s : Store} (h : s.Seals A) {roots : Location → Prop}
    (hroots : ∀ l, roots l → A l) {l : Location} (hl : s.Reaches roots l) : A l := by
  induction hl with
  | root hl => exact hroots _ hl
  | step _ hp ih =>
    cases hp with
    | outer ho => exact h.outer _ _ ih ho
    | binding hv hl => exact h.bindings _ _ _ ih hv _ hl
    | closure hc => exact h.closures _ _ ih hc
    | method ht hx => exact h.methods _ _ _ _ ih ht hx
    | member ht hx hl => exact h.members _ _ _ _ ih ht hx _ hl
    | field hid hx hl => exact h.fields _ _ _ _ ih hid hx _ hl

/-- Writes to the global `x`. -/
def xSetter : Operation :=
  ⟨⟨.keyword .operation, "op", 1, .null⟩, ⟨.identifier, "f", 1, .null⟩, [],
    [.expression .blank (.assign ⟨.identifier, "x", 1, .null⟩
      (.literal ⟨.int, "2", 1, .int 2⟩ (.int 2)) none)]⟩

/-- A machine that is in a block with an `x` of its own. -/
def shadowedX : Machine :=
  let m := Machine.start ⟨fun _ => 0, 0⟩ [("x", .int 0)]
  let declared := ((Stmt.operation xSetter).exec 9).run m
  declared.2.enter 0 [("x", .int 1)]

theorem shadowedX_unreached : ¬shadowedX.InReach (.operation 0) [] (.scope 1) := by
  have hclosures : shadowedX.store.closures = #[⟨xSetter, 0, false⟩] := by with_unfolding_all rfl
  have hsize : shadowedX.store.scopes.size = 2 := by with_unfolding_all rfl
  have houter : shadowedX.store.scopes.outer? 0 = none := by with_unfolding_all rfl
  -- no value leads to a scope, so all depends on the operation and on what is around the globals
  have hin : ∀ v : Value, v.In (· ≠ .scope 1) := by
    rintro v l ⟨⟩ <;> simp
  have hseals : shadowedX.store.Seals (· ≠ .scope 1) := by
    refine ⟨?_, fun _ _ v _ _ => hin v, ?_, fun _ _ _ _ _ _ _ => by simp,
      fun _ _ _ v _ _ _ => hin v, fun _ _ _ v _ _ _ => hin v, ?_⟩
    · intro i o hi ho
      obtain ⟨scope, hscope, -⟩ := Option.bind_eq_some_iff.1 ho
      have hlt : i < shadowedX.store.scopes.size := (Array.getElem?_eq_some_iff.1 hscope).1
      rw [hsize] at hlt
      obtain rfl | rfl := Nat.le_one_iff_eq_zero_or_eq_one.1 (Nat.le_of_lt_succ hlt)
      · cases houter.symm.trans ho
      · exact absurd rfl hi
    · intro id c _ hc
      rw [hclosures, Array.getElem?_singleton] at hc
      split at hc
      · cases hc
        simp
      · cases hc
    · rintro _ hnew rfl
      rw [Location.IsNew, hsize] at hnew
      omega
  refine fun h => hseals.of_reaches ?_ h rfl
  intro l hl
  cases hl with
  | callee h =>
    cases h
    simp
  | arg hv _ => cases hv
  | globals => exact fun h => absurd (Location.scope.inj h) (by with_unfolding_all decide)

theorem shadowedX_kept :
    let m' := (((Value.operation 0).call 9 []).run shadowedX).2
    m'.store.scopes.getAt? 0 m'.current "x" = some (.int 1) ∧
      m'.store.scopes.get? m'.globals "x" = some (.int 2) := by
  obtain ⟨-, -, -, hlocal⟩ := shadowedX.call_frame 9 (.operation 0) []
  have hbefore : shadowedX.store.scopes.getAt? 0 shadowedX.current "x" = some (.int 1) := by
    with_unfolding_all rfl
  have hsize : shadowedX.store.scopes.size = 2 := by with_unfolding_all rfl
  refine ⟨(hlocal 0 1 rfl (by rw [hsize]; decide) shadowedX_unreached "x").trans hbefore, ?_⟩
  with_unfolding_all rfl

end Treescript
