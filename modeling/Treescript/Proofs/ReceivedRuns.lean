import Treescript.Proofs.ReadOnlyRuns
import Treescript.Proofs.Receivers
import Treescript.Proofs.ScopeInvariant

/-!
# Receivers along a run

Every part of a watched run keeps account of its receivers: whatever scope it makes that binds
`self` is made by the binding of a method, at a moment that has been noted, and it leaves alone what
the scopes that are there bind `self` to. The contract asks of a part of the text only that it gives
the name `self` to nothing.
-/

namespace Treescript

/-- However it ends, the run leaves operations, object types and scopes alone, but for variables
other than `self`. -/
def Run.Quiet {α : Type} (run : Run α) : Prop :=
  ∀ m : Machine, m.store.Quiet (run.run m).2.store ∧ (run.run m).2.current = m.current

namespace Run.Quiet

variable {α β : Type} {run : Run α}

theorem of_reads (h : ∀ m, run.Reads m) : Run.Quiet run := by
  intro m
  rw [h m]
  exact ⟨.refl _, rfl⟩

theorem bind {f : α → Run β} (h : Run.Quiet run) (hf : ∀ a, Run.Quiet (f a)) :
    Run.Quiet (run >>= f) := by
  intro m
  have hm := h m
  rw [run_bind_eq]
  generalize run.run m = end_ at hm
  obtain ⟨stop | a, m'⟩ := end_
  · exact hm
  · obtain ⟨hstore, hcurrent⟩ := hf a m'
    exact ⟨hm.1.trans hstore, hcurrent.trans hm.2⟩

theorem emit (e : Event) : Run.Quiet (Run.emit e) := fun m => ⟨.refl m.store, rfl⟩

theorem now : Run.Quiet Run.now := fun m => ⟨.refl m.store, rfl⟩

theorem define {x : String} (hx : x ≠ selfName) (v : Value) : Run.Quiet (Run.define x v) :=
  fun m => ⟨.define m.store m.current hx v, rfl⟩

theorem setProperty (id : Nat) (name : Token) (v : Value) :
    Run.Quiet (Run.setProperty id name v) := fun m => ⟨{ Store.Quiet.refl m.store with }, rfl⟩

theorem addHolder : Run.Quiet (Run.onStore (·.addHolder)) :=
  fun m => ⟨{ Store.Quiet.refl m.store with }, rfl⟩

theorem assign {name : Token} (hx : name.text ≠ selfName) (hops : Option Nat) (v : Value) :
    Run.Quiet (Run.assign name hops v) := by
  intro m
  rw [Run.assign_run]
  cases (m.target? hops).filter fun i => (m.store.scopes.get? i name.text).isSome with
  | none => exact ⟨.refl _, rfl⟩
  | some i => exact ⟨.define m.store i hx v, rfl⟩

theorem native (n : Native) (args : List Value) : Run.Quiet (Value.call 1 (.native n) args) := by
  rw [Value.call]
  split
  · exact Run.Quiet.now.bind fun time => .of_reads fun _ => .applied n time args
  · exact .of_reads fun _ => .applied n 0 args

theorem declareEnum {name : Token} (hx : name.text ≠ selfName) (elements : List Token) :
    Run.Quiet (Run.declareEnum name elements) := by
  have hadd : Run.Quiet (Run.onStore (·.addEnum ⟨name.text, elements.map (·.text)⟩)) :=
    fun m => ⟨{ Store.Quiet.refl m.store with }, rfl⟩
  exact (Run.Quiet.define hx _).bind fun _ => hadd.bind fun _ =>
    (Run.Quiet.define hx _).bind fun _ => .emit _

theorem declareForm {name : Token} (hx : name.text ≠ selfName) (members : NameMap Value) :
    Run.Quiet (Run.declareForm name members) := by
  have hadd : Run.Quiet (Run.onStore (·.addForm ⟨name.text, members⟩)) :=
    fun m => ⟨{ Store.Quiet.refl m.store with }, rfl⟩
  exact hadd.bind fun _ => (Run.Quiet.define hx _).bind fun _ => .emit _

end Run.Quiet

section

variable (T : Texts)

/-- Every scope that binds `self` is accounted for by the moments so far, and was at each moment by
the ones before. The current scope is none of them. -/
structure Observed.Manned (o : Observed) : Prop where
  world : o.state.world.Manned T o.past
  current_lt : o.state.machine.current < o.state.world.scopes.size
  current : ¬o.state.world.Binds o.state.machine.current selfName
  past : ∀ later x earlier, o.past = later ++ x :: earlier → x.state.world.Manned T earlier

structure Observed.Turns (o o' : Observed) : Prop where
  manned : o'.Manned T
  steady : o.state.world.Steady o'.state.world
  past : o.past ⊆ o'.past
  current : o'.state.machine.current = o.state.machine.current

def Mans {α : Type} (watch : Watch α) (o : Observed) : Prop :=
  o.Manned T → o.Turns T (watch.run o).2

end

variable {T : Texts} {α β : Type} {o o' : Observed} {P : Place}

namespace Observed

theorem Turns.trans {o₁ o₂ o₃ : Observed} (h : o₁.Turns T o₂) (h' : o₂.Turns T o₃) :
    o₁.Turns T o₃ :=
  ⟨h'.manned, h.steady.trans h'.steady, List.Subset.trans h.past h'.past,
    h'.current.trans h.current⟩

/-- A step that notes nothing, by what it makes of the world. -/
theorem Manned.turns (h : o.Manned T) {w : World} (hworld : o'.state.world = w)
    (hm : w.Manned T o.past) (hs : o.state.world.Steady w) (hpast : o'.past = o.past)
    (hcurrent : o'.state.machine.current = o.state.machine.current) : o.Turns T o' := by
  subst hworld
  refine ⟨⟨hpast ▸ hm, ?_, ?_, hpast ▸ h.past⟩, hs, hpast ▸ List.Subset.refl _, hcurrent⟩
  · rw [hcurrent]
    exact h.current_lt.trans_le hs.scopes_le
  · rw [hcurrent, hs.binds_iff h.current_lt]
    exact h.current

theorem Manned.turns_of_quiet (h : o.Manned T)
    (hq : o.state.machine.store.Quiet o'.state.machine.store)
    (hregions : o'.state.regions = o.state.regions) (horigins : o'.state.origins = o.state.origins)
    (hpast : o'.past = o.past) (hcurrent : o'.state.machine.current = o.state.machine.current) :
    o.Turns T o' :=
  h.turns rfl (h.world.of_quiet hq hregions horigins) (.of_quiet hq) hpast hcurrent

end Observed

namespace Mans

variable {watch : Watch α}

theorem of_run {result : Except Stop α} (hrun : watch.run o = (result, o'))
    (h : o.Manned T → o.Turns T o') : Mans T watch o := by
  intro ho
  rw [hrun]
  exact h ho

theorem same {result : Except Stop α} (hrun : watch.run o = (result, o)) : Mans T watch o :=
  of_run hrun fun h => h.turns_of_quiet (.refl _) rfl rfl rfl rfl

theorem pure (a : α) : Mans T (Pure.pure a) o := same rfl

theorem throw (stop : Stop) : Mans (α := α) T (MonadExcept.throw stop) o := same rfl

theorem bind {f : α → Watch β} (h : Mans T watch o)
    (hf : ∀ a o', watch.run o = (.ok a, o') → o.Turns T o' → Mans T (f a) o') :
    Mans T (watch >>= f) o := by
  intro ho
  have hturns := h ho
  rw [run_bind_eq]
  cases hrun : watch.run o with
  | mk result o' =>
    rw [hrun] at hturns
    cases result with
    | error stop => exact hturns
    | ok a => exact hturns.trans (hf a o' hrun hturns hturns.manned)

/-- A step that only looks. -/
theorem peek {f : α → Watch β} {a : α} (hrun : watch.run o = (.ok a, o)) (h : Mans T (f a) o) :
    Mans T (watch >>= f) o := by
  intro ho
  rw [run_bind_eq, hrun]
  exact h ho

/-- An operation is looked up in the store before it is used. -/
theorem closure {f : Closure → Watch β} (id : Nat)
    (h : ∀ c, o.state.machine.store.closures[id]? = some c → Mans T (f c) o) :
    Mans T (Watch.lift Run.store >>= fun s => Watch.lift (Run.found s.closures[id]?) >>= f) o := by
  refine peek rfl ?_
  cases hc : o.state.machine.store.closures[id]? with
  | none => exact same rfl
  | some c => exact peek rfl (h c hc)

theorem ite {c : Prop} [Decidable c] {other : Watch α} (h : Mans T watch o) (h' : Mans T other o) :
    Mans T (if c then watch else other) o := by
  by_cases hc : c
  · rw [if_pos hc]
    exact h
  · rw [if_neg hc]
    exact h'

theorem lift {run : Run α} (h : Run.Quiet run) : Mans T (Watch.lift run) o :=
  of_run rfl fun ho => ho.turns_of_quiet (h o.state.machine).1 rfl rfl rfl (h o.state.machine).2

theorem read {run : Run α} (h : run.Reads o.state.machine) : Mans T (Watch.lift run) o := by
  have hq : o.state.machine.store.Quiet (run.run o.state.machine).2.store := by
    rw [h]
    exact .refl _
  exact of_run rfl fun ho => ho.turns_of_quiet hq rfl rfl rfl (congrArg Machine.current h)

theorem note (sight : Sight) (P : Place) : Mans T (Watch.note sight P) o := by
  refine of_run rfl fun ho => ?_
  have hsub : o.past ⊆ ⟨sight, P, o.state⟩ :: o.past := List.subset_cons_self _ _
  refine ⟨⟨ho.world.mono hsub, ho.current_lt, ho.current, ?_⟩, .of_scopes_eq rfl, hsub, rfl⟩
  intro later x earlier heq
  rcases later with _ | ⟨_, later⟩
  · obtain ⟨rfl, rfl⟩ := List.cons.inj heq
    exact ho.world
  · exact ho.past later x earlier (List.cons.inj heq).2

theorem locating {token : Token} (h : Mans T watch o) : Mans T (Watch.locating token watch) o := by
  intro ho
  have hturns := h ho
  rw [Watch.locating, run_tryCatch_eq]
  cases hrun : watch.run o with
  | mk result o' =>
    rw [hrun] at hturns
    rcases result with stop | a
    · cases stop <;> exact hturns
    · exact hturns

/-- A run in a new scope that does not bind `self`, from which it comes back. -/
theorem opened {enter : Watch ScopeId} {body : ScopeId → Watch α} (outer : ScopeId)
    (regions : List Region) (bindings : List (String × Value))
    (hrun : enter.run o = (.ok o.state.world.scopes.size, o'))
    (hworld : o'.state.world = o.state.world.openScope outer regions bindings)
    (hpast : o'.past = o.past) (hcurrent : o'.state.machine.current = o.state.machine.current)
    (hcall : o.Manned T → o.state.world.Binds outer selfName → o.state.world.Calls outer regions)
    (hself : ∀ region rest, regions = region :: rest → selfName ∉ region.names)
    (hx : ∀ b ∈ bindings, b.1 ≠ selfName)
    (hb : Mans T (body o.state.world.scopes.size) (o'.moveTo o.state.world.scopes.size)) :
    Mans T (enter >>= fun scope => Watch.within scope (body scope)) o := by
  obtain ⟨hsize, hget⟩ := o.state.world.openScope_spec outer regions hx
  have hsteady : o.state.world.Steady (o.state.world.openScope outer regions bindings) :=
    ⟨by omega, fun i _ => hget i⟩
  have henter : o.Manned T → o.Turns T o' := fun ho =>
    ho.turns hworld (ho.world.openScope (hcall ho) hself hx) hsteady hpast hcurrent
  rw [← hworld] at hsize hget
  have hnew : o.state.world.scopes.size < o'.state.world.scopes.size := by omega
  have hunbound : ¬o'.state.world.Binds o.state.world.scopes.size selfName := by
    rw [World.Binds, hget]
    exact o.state.world.not_binds_size selfName
  refine (of_run hrun henter).bind fun scope o₁ hrun₁ _ ho₁ => ?_
  obtain ⟨hscope, rfl⟩ := Prod.mk.inj (hrun.symm.trans hrun₁)
  obtain rfl := Except.ok.inj hscope
  obtain ⟨hm, hs, hpast', -⟩ := hb ⟨ho₁.world, hnew, hunbound, ho₁.past⟩
  refine ⟨⟨hm.world, ho₁.current_lt.trans_le hs.scopes_le, ?_, hm.past⟩, hs, hpast', rfl⟩
  exact fun hb => ho₁.current ((hs.binds_iff ho₁.current_lt).1 hb)

theorem block {names : List String} (hn : selfName ∉ names) {body : ScopeId → Watch α}
    (hb : ∀ (scope : ScopeId) (o' : Observed), Mans T (body scope) (o'.moveTo scope)) :
    Mans T (Watch.enterScope (P.enter names).regions >>= fun scope =>
      Watch.within scope (body scope)) o := by
  refine opened o.state.machine.current (P.enter names).regions [] rfl rfl rfl rfl
    (fun ho hb => absurd hb ho.current) ?_ nofun (hb _ _)
  intro region rest heq
  obtain ⟨rfl, -⟩ := List.cons.inj heq
  exact hn

/-- The body of an operation runs in a scope of its own, inside the scope of the operation. -/
theorem call {id : Nat} {c : Closure} (hc : o.state.machine.store.closures[id]? = some c)
    (horigin : (o.state.origins id).place = P) (hlocals : selfName ∉ c.declaration.locals)
    (args : List Value) {body : ScopeId → Watch α}
    (hb : ∀ (scope : ScopeId) (o' : Observed), Mans T (body scope) (o'.moveTo scope)) :
    Mans T (Watch.enterCall (P.operation c.declaration).regions c args >>= fun scope =>
      Watch.within scope (body scope)) o := by
  have hworld := World.store_defineAll (o.state.world.enter c.scope
    (P.operation c.declaration).regions) o.state.world.scopes.size
    ((c.declaration.params.map Token.text).zip args)
  refine opened c.scope (P.operation c.declaration).regions
    ((c.declaration.params.map Token.text).zip args) rfl hworld.symm rfl rfl ?_ ?_ ?_ (hb _ _)
  · intro _ _
    refine ⟨id, c, hc, rfl, ?_⟩
    rw [show (o.state.world.origins id).place = P from horigin]
  · intro region rest heq
    obtain ⟨rfl, -⟩ := List.cons.inj heq
    exact hlocals
  · intro b hb hself
    exact hlocals (List.mem_append_left _ (hself ▸ (List.of_mem_zip hb).1))

theorem declareOperation {op : Operation} (hname : op.name.text ≠ selfName)
    (hv : ∀ v ∈ op.visits P, T.visits v) : Mans T (Watch.declareOperation P op) o := by
  refine of_run rfl fun ho => ?_
  have hworld := ho.world.declareOperation ho.current_lt ho.current hname hv
  exact ho.turns rfl hworld (.declareOperation _ _ hname _) rfl rfl

theorem declareObject {name : Token} (hname : name.text ≠ selfName) {methods : List Operation}
    (hv : ∀ v ∈ Operation.visitsOfList P methods, T.visits v) :
    Mans T (Watch.declareObject P name methods) o := by
  intro ho
  have hworld := ho.world.declareObject ho.current_lt ho.current hname hv
  have hmachine := Erases.declareObject P name methods o
  exact ho.turns (Watch.world_declareObject o P name methods) hworld
    (.declareObject _ _ hname _ _) rfl (congrArg (fun r => r.2.current) hmachine.symm)

/-- A method is bound to a receiver, at a moment that has been noted. -/
theorem bindSelf {c : Closure} {t i : Nat} {y : Moment}
    {method : Nat} (hc : o.state.machine.store.closures[method]? = some c)
    (hmethod : o.Manned T → o.state.world.Unbound T method) (hy : y ∈ o.past)
    (hbinds : y.Binds o.state.machine.store.closures.size (.holder (.object t) i)) :
    Mans T (Watch.bindSelf (o.state.origins method).place c (.holder (.object t) i)) o := by
  refine of_run rfl fun ho => ?_
  obtain ⟨c', hc', hself, hvisit⟩ := hmethod ho
  obtain rfl := Option.some.inj (hc.symm.trans hc')
  have hlt := ho.world.scope_lt method c hc
  have hworld := ho.world.receive hlt hself hvisit (ho.world.visits method c hc) hy hbinds
  exact ho.turns rfl hworld (World.steady_receive ..) rfl rfl

/-- A property is read from a holder, which the object of the noted expression has given. -/
theorem getProperty {of : TypeRef} {id fuel : Nat} {name : Token} {object : Expr} {y : Moment}
    (hy : y ∈ o.past) (hsight : y.sight = .node (.expr (.get object name)))
    (hobject : (object.eval fuel).run y.state.machine = (.ok (.holder of id), o.state.machine)) :
    Mans T (Watch.getProperty of id name) o := by
  cases hm : o.state.machine.store.methodRead? of id name.text with
  | none =>
    exact of_run (Watch.getProperty_run_of_none hm) (read (.getProperty hm))
  | some method =>
    obtain ⟨t, fields, type, c, rfl, hfields, hnone, htype, hmethod, hc⟩ :=
      Store.methodRead?_eq_some hm
    have hrun := Run.getProperty_run hfields hnone htype hmethod hc
    have hbinds : y.Binds o.state.machine.store.closures.size (.holder (.object t) id) :=
      .read hsight rfl hobject (congrArg Prod.fst hrun) rfl
    exact of_run (Watch.getProperty_run hm hrun) (bindSelf hc
      (fun ho => ho.world.methods type (Array.mem_of_getElem? htype) _ _ hmethod) hy hbinds)

end Mans

theorem Expr.quiet_access {e : Expr} (h : ¬Visit.NamesSelf ⟨.node (.expr e), P⟩) (v : Value) :
    Run.Quiet (e.access v) := by
  match e with
  | .variable name hops => exact .of_reads fun _ => .lookup name name.text hops
  | .self keyword hops => exact .of_reads fun _ => .lookup keyword selfName hops
  | .assign name _ hops | .count _ _ name hops => exact .assign h hops v
  | .hole | .literal .. | .unary .. | .binary .. | .logical .. | .call .. | .group .. | .get ..
  | .set .. | .parent _ | .global _ => exact .of_reads fun _ => .pure v

theorem Mans.access {e : Expr} (h : ¬Visit.NamesSelf ⟨.node (.expr e), P⟩) (v : Value) :
    Mans T (Watch.access P e v) o :=
  (note _ _).bind fun _ _ _ _ => .lift (e.quiet_access h v)

/-- The callee and the arguments of a noted call have just been evaluated, the callee to a type. -/
def Observed.Creates (o : Observed) (t : TypeRef) : Prop :=
  ∃ y ∈ o.past, ∃ callee paren args fuel values m,
    y.sight = .node (.expr (.call callee paren args)) ∧
    (callee.eval fuel).run y.state.machine = (.ok (.type t), m) ∧
    (Expr.evalList fuel args).run m = (.ok values, o.state.machine)

theorem run_bind_eq_ok {σ : Type} {x : ExceptT Stop (StateM σ) α}
    {f : α → ExceptT Stop (StateM σ) β} {s s' : σ} {b : β} (h : (x >>= f).run s = (.ok b, s')) :
    ∃ a s₁, x.run s = (.ok a, s₁) ∧ (f a).run s₁ = (.ok b, s') := by
  rw [run_bind_eq] at h
  split at h
  · next a s₁ hx => exact ⟨a, s₁, hx, h⟩
  · cases h

theorem Store.exists_of_pilot? {s : Store} {t : TypeRef} {pilot : Nat}
    (h : s.pilot? t = some pilot) : ∃ n type, t = .object n ∧ s.objects[n]? = some type ∧
      type.methods.get? pilotName = some pilot := by
  cases t with
  | object n =>
    obtain ⟨type, htype, hmethod⟩ := Option.bind_eq_some_iff.1 h
    exact ⟨n, type, rfl, htype, hmethod⟩
  | enum _ => cases h
  | form _ => cases h

/-- What is chosen among arms is part of their text. -/
theorem Arm.visits_of_watchChoose {fuel : Nat} {arms : List Arm} {s : Stmt} {Q : Place}
    (h : (Arm.watchChoose fuel P arms).run o = (.ok (some (s, Q)), o')) :
    s.visits Q ⊆ Arm.visitsOfList P arms := by
  induction arms generalizing fuel P o with
  | nil => cases fuel <;> cases h
  | cons a rest ih =>
    obtain ⟨token, condition, branch⟩ := a
    cases fuel with
    | zero => cases h
    | succ fuel =>
      obtain ⟨v, o₁, -, h⟩ := run_bind_eq_ok h
      obtain ⟨later, o₂, hlater, h⟩ := run_bind_eq_ok h
      have hothers : (Pure.pure later : Watch _).run o₂ = (.ok (some (s, Q)), o') →
          s.visits Q ⊆ Arm.visitsOfList P (⟨token, condition, branch⟩ :: rest) := by
        intro heq
        rw [show (Except.ok later, o₂) = _ from heq] at hlater
        exact List.subset_append_of_subset_right _ (ih hlater)
      split at h
      · exact hothers h
      · obtain ⟨rfl, rfl⟩ := Prod.mk.inj (Option.some.inj (Except.ok.inj (Prod.mk.inj h).1))
        intro v hv
        rw [Arm.visitsOfList, Arm.visits]
        exact List.mem_append_left _ (List.mem_cons_of_mem _ (List.mem_append_right _ hv))
      · exact hothers h

open Mans

mutual

theorem Expr.mans (hT : T.Selfless) (fuel : Nat) {o : Observed} {P : Place} {e : Expr}
    (hv : ∀ part ∈ e.parts, T.visits ⟨.node (.expr part), P⟩) :
    Mans T (e.watch fuel P) o := by
  match fuel, e with
  | 0, _ => exact Mans.throw _
  | fuel + 1, .hole => exact (note _ _).bind fun _ _ _ _ => Mans.throw _
  | fuel + 1, .literal _ value => exact (note _ _).bind fun _ _ _ _ => Mans.pure _
  | fuel + 1, .variable .. | fuel + 1, .self .. =>
    exact (note _ _).bind fun _ _ _ _ => access (hT _ (hv _ List.mem_cons_self)) _
  | fuel + 1, .assign _ value _ =>
    simp only [Expr.parts, List.forall_mem_cons] at hv
    refine (note _ _).bind fun _ o₁ _ _ => ?_
    exact (Expr.mans hT fuel hv.2).bind fun v o₂ _ _ => access (hT _ hv.1) v
  | fuel + 1, .unary operator right =>
    simp only [Expr.parts, List.forall_mem_cons] at hv
    refine (note _ _).bind fun _ o₁ _ _ => ?_
    exact (Expr.mans hT fuel hv.2).bind fun v o₂ _ _ => .read (.operator _ _)
  | fuel + 1, .binary left operator right =>
    simp only [Expr.parts, List.forall_mem_cons, List.forall_mem_append] at hv
    refine (note _ _).bind fun _ o₁ _ _ => ?_
    refine (Expr.mans hT fuel hv.2.1).bind fun l o₂ _ _ => ?_
    refine (Expr.mans hT fuel hv.2.2).bind fun r o₃ _ _ => ?_
    exact .read (Run.Reads.store.bind fun _ => .operator _ _)
  | fuel + 1, .logical left operator right =>
    simp only [Expr.parts, List.forall_mem_cons, List.forall_mem_append] at hv
    refine (note _ _).bind fun _ o₁ _ _ => ?_
    refine (Expr.mans hT fuel hv.2.1).bind fun l o₂ _ _ => ?_
    exact .ite (.pure _) (Expr.mans hT fuel hv.2.2)
  | fuel + 1, .count operator target _ _ =>
    simp only [Expr.parts, List.forall_mem_cons] at hv
    refine (note _ _).bind fun _ o₁ _ _ => ?_
    refine (Expr.mans hT fuel hv.2).bind fun v o₂ _ _ => ?_
    exact (Mans.read (.operator _ _)).bind fun u o₃ _ _ => access (hT _ hv.1) u
  | fuel + 1, .call callee paren args =>
    simp only [Expr.parts, List.forall_mem_cons, List.forall_mem_append] at hv
    refine (note _ _).bind fun _ o₁ hrun₁ _ => ?_
    refine (Expr.mans hT fuel hv.2.1).bind fun f o₂ hrun₂ ht₂ => ?_
    refine (Expr.mansList hT fuel hv.2.2).bind fun vs o₃ hrun₃ ht₃ => ?_
    refine (Mans.read .store).bind fun s o₄ hrun₄ _ => ?_
    obtain ⟨-, rfl⟩ := Prod.mk.inj hrun₄
    cases s.arity? f with
    | none => exact Mans.read (.throw _)
    | some arity =>
      refine .ite (.read (.throw _)) (.locating (Value.mansCall hT fuel fun t ht => ?_))
      subst ht
      have hcallee := Expr.erases fuel P callee o₁
      have hargs := Expr.erasesList fuel P args o₂
      obtain ⟨-, rfl⟩ := Prod.mk.inj hrun₁
      rw [hrun₂] at hcallee
      rw [hrun₃] at hargs
      exact ⟨_, ht₃.past (ht₂.past List.mem_cons_self), callee, paren, args, fuel, vs,
        o₂.state.machine, rfl, hcallee, hargs⟩
  | fuel + 1, .group _ inner =>
    simp only [Expr.parts, List.forall_mem_cons] at hv
    exact (note _ _).bind fun _ o₁ _ _ => Expr.mans hT fuel hv.2
  | fuel + 1, .get object name =>
    simp only [Expr.parts, List.forall_mem_cons] at hv
    refine (note _ _).bind fun _ o₁ hrun₁ _ => ?_
    refine (Expr.mans hT fuel hv.2).bind fun target o₂ hrun₂ ht₂ => ?_
    cases target with
    | holder of id =>
      have hobject := Expr.erases fuel P object o₁
      obtain ⟨-, rfl⟩ := Prod.mk.inj hrun₁
      rw [hrun₂] at hobject
      exact getProperty (ht₂.past List.mem_cons_self) rfl hobject
    | _ => exact Mans.read (.throw _)
  | fuel + 1, .set object name value =>
    simp only [Expr.parts, List.forall_mem_cons, List.forall_mem_append] at hv
    refine (note _ _).bind fun _ o₁ _ _ => ?_
    refine (Expr.mans hT fuel hv.2.1).bind fun v o₂ _ _ => ?_
    refine (Expr.mans hT fuel hv.2.2).bind fun target o₃ _ _ => ?_
    cases target with
    | holder of id => exact (Mans.lift (.setProperty _ _ _)).bind fun _ _ _ _ => .pure _
    | _ => exact Mans.read (.throw _)
  | fuel + 1, .parent name => exact (note _ _).bind fun _ _ _ _ => .read (.parent 0 name)
  | fuel + 1, .global name => exact (note _ _).bind fun _ _ _ _ => .read (.global 0 name)

theorem Expr.mansList (hT : T.Selfless) (fuel : Nat) {o : Observed} {P : Place} {es : List Expr}
    (hv : ∀ part ∈ Expr.partsOfList es, T.visits ⟨.node (.expr part), P⟩) :
    Mans T (Expr.watchList fuel P es) o := by
  match fuel, es with
  | 0, _ => exact Mans.throw _
  | fuel + 1, [] => exact Mans.pure _
  | fuel + 1, e :: es =>
    simp only [Expr.partsOfList, List.forall_mem_append] at hv
    refine (Expr.mans hT fuel hv.1).bind fun v o₁ _ _ => ?_
    exact (Expr.mansList hT fuel hv.2).bind fun vs o₂ _ _ => .pure _

theorem Value.mansCall (hT : T.Selfless) (fuel : Nat) {o : Observed} {callee : Value}
    {args : List Value} (hcreates : ∀ t, callee = .type t → o.Creates t) :
    Mans T (callee.watchCall fuel args) o := by
  match fuel, callee with
  | 0, _ => exact Mans.throw _
  | fuel + 1, .operation id =>
    exact closure id fun c hc => peek rfl (Closure.mans hT fuel hc rfl args)
  | fuel + 1, .native n => exact .lift (.native n args)
  | fuel + 1, .type t =>
    obtain ⟨y, hy, callee, paren, exprs, fuel', values, m, hsight, hcallee, hargs⟩ := hcreates t rfl
    refine (Mans.lift .addHolder).bind fun id o₁ hrun₁ _ => ?_
    obtain ⟨hid, ho₁⟩ := Prod.mk.inj hrun₁
    obtain rfl := Except.ok.inj hid
    refine peek rfl ?_
    cases hpilot : o₁.state.machine.store.pilot? t with
    | none => exact Mans.pure _
    | some pilot =>
      obtain ⟨n, type, rfl, htype, hmethod⟩ := Store.exists_of_pilot? hpilot
      have hy₁ : y ∈ o₁.past := ho₁ ▸ hy
      -- the pilot is bound to the new holder, and the operation that this makes is called
      refine closure pilot fun c hc => peek rfl ?_
      have hbinds : y.Binds o₁.state.machine.store.closures.size
          (.holder (.object n) o.state.machine.store.holders.size) := by
        rw [← ho₁] at hpilot hc ⊢
        exact .created hsight rfl hcallee hargs hpilot hc rfl
      refine (bindSelf hc (fun ho => ho.world.methods type (Array.mem_of_getElem? htype) _ _
        hmethod) hy₁ hbinds).bind fun bound o₂ hrun₂ _ => ?_
      obtain ⟨hbound, ho₂⟩ := Prod.mk.inj hrun₂
      obtain rfl := Except.ok.inj hbound
      refine closure _ fun c' hc' => ?_
      have horigin : o₂.state.origins o₁.state.machine.store.closures.size =
          ⟨(o₁.state.origins pilot).place, true⟩ := by
        rw [← ho₂]
        exact o₁.state.world.origins_receive c _ (.holder (.object n) _)
      exact (Closure.mans hT fuel hc' (congrArg Origin.place horigin) args).bind
        fun _ _ _ _ => .pure _
  | _ + 1, .none | _ + 1, .bool _ | _ + 1, .int _ | _ + 1, .float _ | _ + 1, .text _
  | _ + 1, .holder .. => exact Mans.throw _

theorem Closure.mans (hT : T.Selfless) (fuel : Nat) {o : Observed} {P : Place} {id : Nat}
    {c : Closure} (hc : o.state.machine.store.closures[id]? = some c)
    (horigin : (o.state.origins id).place = P) (args : List Value) :
    Mans T (c.watch fuel P args) o := by
  match fuel with
  | 0 => exact Mans.throw _
  | fuel + 1 =>
    intro ho
    have hv := ho.world.visits id c hc
    rw [show (o.state.world.origins id).place = P from horigin] at hv
    have hlocals := Visit.selfName_not_mem (fun v h => hT v (hv v h))
      (c.declaration.exists_declaration P)
    rw [Operation.visits_eq, List.forall_mem_append] at hv
    have hbody := call hc horigin hlocals args fun scope _ => Stmt.mansList hT fuel hv.2
    rw [Closure.watch, ← bind_assoc]
    refine hbody.bind (fun completion o₁ _ _ => ?_) ho
    refine peek rfl ?_
    dsimp only
    split <;> exact Mans.pure _

theorem Stmt.mans (hT : T.Selfless) (fuel : Nat) {o : Observed} {P : Place} {s : Stmt}
    (hv : ∀ v ∈ s.visits P, T.visits v) : Mans T (s.watch fuel P) o := by
  match fuel, s with
  | 0, _ => exact Mans.throw _
  | fuel + 1, .hole => exact (note _ _).bind fun _ _ _ _ => Mans.throw _
  | fuel + 1, .expression _ value =>
    simp only [Stmt.visits, List.forall_mem_cons, Expr.visits, List.forall_mem_map] at hv
    refine (note _ _).bind fun _ o₁ _ _ => ?_
    exact (Expr.mans hT fuel hv.2).bind fun _ _ _ _ => .pure _
  | fuel + 1, .print _ value =>
    simp only [Stmt.visits, List.forall_mem_cons, Expr.visits, List.forall_mem_map] at hv
    refine (note _ _).bind fun _ o₁ _ _ => ?_
    refine (Expr.mans hT fuel hv.2).bind fun _ o₂ _ _ => ?_
    refine (Mans.read .store).bind fun _ o₃ _ _ => ?_
    exact (Mans.lift (.emit _)).bind fun _ _ _ _ => .pure _
  | fuel + 1, .define ⟨_, name, initial⟩ =>
    simp only [Stmt.visits, List.forall_mem_cons] at hv
    refine (note _ _).bind fun _ o₁ _ _ => ?_
    refine (Expr.mansOptional hT fuel hv.2.2).bind fun v o₂ _ _ => ?_
    exact (Mans.lift (.define (hT _ hv.2.1) v)).bind fun _ _ _ _ => .pure _
  | fuel + 1, .block _ body =>
    simp only [Stmt.visits, List.forall_mem_cons] at hv
    refine (note _ _).bind fun _ o₁ _ _ => ?_
    have hnames := Visit.selfName_not_mem (fun v h => hT v (hv.2 v h))
      (Stmt.exists_declarationOfList _ body)
    exact block hnames fun _ _ => Stmt.mansList hT fuel hv.2
  | fuel + 1, .operation op =>
    simp only [Stmt.visits, List.forall_mem_cons] at hv
    refine (note _ _).bind fun _ o₁ _ _ => ?_
    exact (declareOperation (hT _ hv.2.1) hv.2.2).bind fun _ _ _ _ => .pure _
  | fuel + 1, .conditional token condition branch arms otherwise =>
    rw [Stmt.visits_conditional] at hv
    simp only [List.forall_mem_cons, List.forall_mem_append, Expr.visits,
      List.forall_mem_map] at hv
    obtain ⟨-, ⟨⟨hcond, hbranch⟩, harms⟩, hlast⟩ := hv
    refine (note _ _).bind fun _ o₁ _ _ => ?_
    refine (Expr.mans hT fuel hcond).bind fun v o₂ _ _ => ?_
    refine .ite (Stmt.mans hT fuel hbranch) ?_
    refine (Arm.mansChoose hT fuel harms).bind fun chosen o₃ hrun₃ _ => ?_
    cases chosen with
    | some choice =>
      exact Stmt.mans hT fuel fun v hv => harms v (Arm.visits_of_watchChoose hrun₃ hv)
    | none =>
      cases otherwise with
      | none => exact Mans.pure _
      | some last => exact Stmt.mans hT fuel hlast
  | fuel + 1, .arm a => exact (note _ _).bind fun _ _ _ _ => Mans.read (.throw _)
  | fuel + 1, .loop token condition body =>
    simp only [Stmt.visits, List.cons_append, List.forall_mem_cons, List.forall_mem_append,
      Expr.visits, List.forall_mem_map] at hv
    exact (note _ _).bind fun _ _ _ _ => Stmt.mansRepeat hT fuel hv.2.1 hv.2.2
  | fuel + 1, .return _ value =>
    simp only [Stmt.visits, List.forall_mem_cons] at hv
    refine (note _ _).bind fun _ o₁ _ _ => ?_
    exact (Expr.mansOptional hT fuel hv.2).bind fun _ _ _ _ => .pure _
  | fuel + 1, .object _ name methods =>
    simp only [Stmt.visits, List.forall_mem_cons] at hv
    refine (note _ _).bind fun _ o₁ _ _ => ?_
    exact (declareObject (hT _ hv.2.1) hv.2.2).bind fun _ _ _ _ => .pure _
  | fuel + 1, .enum _ name elements =>
    simp only [Stmt.visits, List.forall_mem_cons] at hv
    refine (note _ _).bind fun _ o₁ _ _ => ?_
    exact (Mans.lift (.declareEnum (hT _ hv.2.1) elements)).bind fun _ _ _ _ => .pure _
  | fuel + 1, .form _ name members =>
    simp only [Stmt.visits, List.forall_mem_cons] at hv
    refine (note _ _).bind fun _ o₁ _ _ => ?_
    refine (Mans.lift (.define (hT _ hv.2.1) _)).bind fun _ o₂ _ _ => ?_
    refine (Definition.mansMembers hT fuel hv.2.2 .empty).bind fun all o₃ _ _ => ?_
    exact (Mans.lift (.declareForm (hT _ hv.2.1) all)).bind fun _ _ _ _ => .pure _

theorem Expr.mansOptional (hT : T.Selfless) (fuel : Nat) {o : Observed} {P : Place}
    {e? : Option Expr} (hv : ∀ v ∈ Expr.visitsOptional P e?, T.visits v) :
    Mans T (Expr.watchOptional fuel P e?) o := by
  match fuel, e? with
  | 0, _ => exact Mans.throw _
  | fuel + 1, none => exact Mans.pure _
  | fuel + 1, some e =>
    simp only [Expr.visitsOptional, Expr.visits, List.forall_mem_map] at hv
    exact Expr.mans hT fuel hv

theorem Stmt.mansList (hT : T.Selfless) (fuel : Nat) {o : Observed} {P : Place} {ss : List Stmt}
    (hv : ∀ v ∈ Stmt.visitsOfList P ss, T.visits v) : Mans T (Stmt.watchList fuel P ss) o := by
  match fuel, ss with
  | 0, _ => exact Mans.throw _
  | fuel + 1, [] => exact Mans.pure _
  | fuel + 1, s :: ss =>
    simp only [Stmt.visitsOfList, List.forall_mem_append] at hv
    refine (Stmt.mans hT fuel hv.1).bind fun c o₁ _ _ => ?_
    cases c with
    | returned v => exact Mans.pure _
    | normal => exact Stmt.mansList hT fuel hv.2

theorem Arm.mansChoose (hT : T.Selfless) (fuel : Nat) {o : Observed} {P : Place} {arms : List Arm}
    (hv : ∀ v ∈ Arm.visitsOfList P arms, T.visits v) :
    Mans T (Arm.watchChoose fuel P arms) o := by
  match fuel, arms with
  | 0, _ => exact Mans.throw _
  | fuel + 1, [] => exact Mans.pure _
  | fuel + 1, ⟨_, condition, branch⟩ :: rest =>
    simp only [Arm.visitsOfList, List.cons_append, List.forall_mem_cons, List.forall_mem_append,
      Arm.visits, Expr.visits, List.forall_mem_map] at hv
    obtain ⟨-, ⟨hcond, -⟩, hrest⟩ := hv
    refine (Expr.mans hT fuel hcond).bind fun v o₁ _ _ => ?_
    refine (Arm.mansChoose hT fuel hrest).bind fun later o₂ _ _ => ?_
    split <;> exact Mans.pure _

theorem Stmt.mansRepeat (hT : T.Selfless) (fuel : Nat) {o : Observed} {P : Place}
    {condition : Expr} {body : Stmt}
    (hcond : ∀ part ∈ condition.parts, T.visits ⟨.node (.expr part), P⟩)
    (hv : ∀ v ∈ body.visits (P.child 0), T.visits v) :
    Mans T (Stmt.watchRepeat fuel P condition body) o := by
  match fuel with
  | 0 => exact Mans.throw _
  | fuel + 1 =>
    refine (Expr.mans hT fuel hcond).bind fun v o₁ _ _ => .ite ?_ (.pure _)
    refine (Stmt.mans hT fuel hv).bind fun c o₂ _ _ => ?_
    cases c with
    | returned v => exact Mans.pure _
    | normal => exact Stmt.mansRepeat hT fuel hcond hv

theorem Definition.mansMembers (hT : T.Selfless) (fuel : Nat) {o : Observed} {P : Place}
    {members : List Definition} (hv : ∀ v ∈ Definition.visitsOfMembers P members, T.visits v)
    (done : NameMap Value) :
    Mans T (Definition.watchMembers fuel P members done) o := by
  match fuel, members with
  | 0, _ => exact Mans.throw _
  | fuel + 1, [] => exact Mans.pure _
  | fuel + 1, ⟨_, name, initial⟩ :: rest =>
    simp only [Definition.visitsOfMembers, List.cons_append, List.forall_mem_cons,
      List.forall_mem_append] at hv
    obtain ⟨-, hinit, hname, hrest⟩ := hv
    refine (Expr.mansOptional hT fuel hinit).bind fun v o₁ _ _ => ?_
    refine (Mans.lift (.define (hT _ hname) v)).bind fun _ o₂ _ _ => ?_
    exact Definition.mansMembers hT fuel hrest _

end

theorem Program.mans (hT : T.Selfless) (fuel : Nat) {o : Observed} {P : Place} {p : Program}
    (hv : ∀ v ∈ Stmt.visitsOfList P p, T.visits v) : Mans T (Program.watch fuel P p) o := by
  induction p generalizing o P with
  | nil => exact Mans.pure _
  | cons s rest ih =>
    simp only [Stmt.visitsOfList, List.forall_mem_append] at hv
    exact (Stmt.mans hT fuel hv.1).bind fun _ _ _ _ => ih hv.2

end Treescript
