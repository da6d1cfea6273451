import Treescript.Proofs.WatchContracts

/-!
# Scopes along a run

Every part of a watched run keeps the invariant: started where its place is occupied, it notes only
moments that agree with the text and leaves a sound world behind. Results that are operations can be
called, and after a statement the place behind it is active. The induction is on fuel, one case for
each kind of node, and each case puts together the contracts of the steps that it is made of.
-/

namespace Treescript

/-- A branching statement declares nothing in the scope around it, and a declared name is new in its
scope. -/
def Visit.Plain (v : Visit) : Prop :=
  match v.item with
  | .node (.stmt s@(.conditional ..)) => s.declares = []
  | .node (.stmt s@(.loop ..)) => s.declares = []
  | .declaration name => ¬v.place.Declared 0 name.text
  | _ => True

def Texts.Plain (T : Texts) : Prop := ∀ v, T.visits v → T.strict v.place.program → v.Plain

theorem Place.Permits.left {P : Place} {N M : List String} (h : P.Permits (N ++ M)) :
    P.Permits N := fun layer hl x hx => h layer hl x (List.mem_append_left _ hx)

theorem Place.Permits.right {P : Place} {N M : List String} (h : P.Permits (N ++ M)) :
    P.Permits M := fun layer hl x hx => h layer hl x (List.mem_append_right _ hx)

theorem Place.permits_enter (P : Place) (names : List String) : (P.enter names).Permits names := by
  rintro _ ⟨⟩ x hx
  exact hx

theorem Operation.visits_eq (P : Place) (o : Operation) :
    o.visits P = Token.visitsOfParams (P.operation o) o.params ++
      Stmt.visitsOfList ((P.operation o).after (o.params.map (·.text))) o.body := by
  cases o
  rfl

theorem Stmt.declares_conditional (token : Token) (condition : Expr) (branch : Stmt)
    (arms : List Arm) (otherwise : Option Stmt) :
    (Stmt.conditional token condition branch arms otherwise).declares =
      branch.declares ++ Arm.declaresList arms ++ (otherwise.map Stmt.declares).getD [] := by
  cases otherwise <;> simp [Stmt.declares]

theorem Stmt.visits_conditional (P : Place) (token : Token) (condition : Expr) (branch : Stmt)
    (arms : List Arm) (otherwise : Option Stmt) :
    (Stmt.conditional token condition branch arms otherwise).visits P =
      ⟨.node (.stmt (.conditional token condition branch arms otherwise)), P⟩ ::
        (condition.visits P ++ branch.visits (P.child 0) ++
          Arm.visitsOfList ((P.after branch.declares).child 1) arms ++
          (otherwise.map (Stmt.visits
            ((P.after (branch.declares ++ Arm.declaresList arms)).child 2))).getD []) := by
  cases otherwise <;> simp [Stmt.visits]

/-- How a statement ends: the place after it is active, or a value that fits is on its way out. -/
def Completion.Reaches (T : Texts) (w : World) (P : Place) (i : ScopeId) : Completion → Prop
  | .normal => w.Activates T P i
  | .returned v => v.Fits w

/-- A statement that may be evaluated in a scope. -/
structure Stmt.Due (T : Texts) (w : World) (i : ScopeId) (P : Place) (s : Stmt) : Prop where
  occupies : w.Occupies T P i
  defining : P.defining = none
  permits : P.Permits s.declares
  visits : ∀ v ∈ s.visits P, T.visits v

variable {T : Texts}

theorem Completion.Reaches.of_activates {w : World} {P Q : Place} {i j : ScopeId} {c : Completion}
    (h : c.Reaches T w Q j) (ha : w.Activates T P i) : c.Reaches T w P i := by
  cases c with
  | normal => exact ha
  | returned v => exact h

theorem World.Occupies.reaches_nil {o o' : Observed} {P : Place} {N : List String}
    (ha : o.state.world.Occupies T P o.state.machine.current) (hl : o.Leads T N o') :
    Completion.normal.Reaches T o'.state.world (P.after []) o.state.machine.current := by
  rw [Place.after_nil]
  exact ha.1.mono hl.grows

theorem World.Occupies.reaches_of_binds {o o' : Observed} {P : Place} {N : List String}
    (hd : P.defining = none) (ha : o.state.world.Occupies T P o.state.machine.current)
    (hl : o.Leads T N o') {x : String} (hb : o'.state.world.Binds o.state.machine.current x) :
    Completion.normal.Reaches T o'.state.world (P.after [x]) o.state.machine.current :=
  (ha.1.mono hl.grows).after_of_binds hd hb

/-- A branch that ends normally leaves the place after the whole statement active, since either the
program is not strict or the statement declares nothing. -/
theorem Keeps.branch {o : Observed} {P Q : Place} {i j : ScopeId} {N M : List String}
    {run : Watch Completion} (h : Keeps T N run o fun w c => c.Reaches T w Q j) (hsub : N ⊆ M)
    (ha : o.state.world.Activates T P i) (hnone : T.strict P.program → M = []) :
    Keeps T M run o fun w c => c.Reaches T w (P.after M) i :=
  (h.weaken hsub).imp fun _ _ hl hc =>
    hc.of_activates ((ha.mono hl.grows).after_of_strict hnone)

open Keeps

mutual

theorem Expr.keeps (hT : T.Plain) (fuel : Nat) {o : Observed} {P : Place} (hf : o.Fine T)
    (ha : o.state.world.Occupies T P o.state.machine.current) {e : Expr}
    (hv : ∀ part ∈ e.parts, T.visits ⟨.node (.expr part), P⟩) :
    Keeps T [] (e.watch fuel P) o fun w v => v.Fits w := by
  match fuel, e with
  | 0, _ => exact throw hf _
  | fuel + 1, .hole =>
    exact (node hf (hv _ List.mem_cons_self) ha).bind fun _ _ hl _ => throw hl.fine _
  | fuel + 1, .literal _ value =>
    exact (node hf (hv _ List.mem_cons_self) ha).bind fun _ _ hl _ =>
      Keeps.pure hl.fine ((Value.isConstant_ofLiteral value).fits _)
  | fuel + 1, .variable .. | fuel + 1, .self .. =>
    have hself := hv _ List.mem_cons_self
    exact (node hf hself ha).bind fun _ _ hl _ =>
      access hl.fine hself (hl.occupies ha) trivial
  | fuel + 1, .assign _ value _ =>
    simp only [Expr.parts, List.forall_mem_cons] at hv
    refine (node hf hv.1 ha).bind fun _ o₁ hl₁ _ => ?_
    refine (Expr.keeps hT fuel hl₁.fine (hl₁.occupies ha) hv.2).bind fun v o₂ hl₂ hfit => ?_
    exact access hl₂.fine hv.1 ((hl₁.trans hl₂).occupies ha) hfit
  | fuel + 1, .unary operator right =>
    simp only [Expr.parts, List.forall_mem_cons] at hv
    refine (node hf hv.1 ha).bind fun _ o₁ hl₁ _ => ?_
    refine (Expr.keeps hT fuel hl₁.fine (hl₁.occupies ha) hv.2).bind fun v o₂ hl₂ _ => ?_
    exact Keeps.operator hl₂.fine _ fun _ => Operator.isConstant_of_prefixed
  | fuel + 1, .binary left operator right =>
    simp only [Expr.parts, List.forall_mem_cons, List.forall_mem_append] at hv
    refine (node hf hv.1 ha).bind fun _ o₁ hl₁ _ => ?_
    refine (Expr.keeps hT fuel hl₁.fine (hl₁.occupies ha) hv.2.1).bind fun l o₂ hl₂ _ => ?_
    have hl := hl₁.trans hl₂
    refine (Expr.keeps hT fuel hl₂.fine (hl.occupies ha) hv.2.2).bind fun r o₃ hl₃ _ => ?_
    refine lift_bind (store hl₃.fine) fun s o₄ hl₄ _ => ?_
    exact Keeps.operator hl₄.fine _ fun _ => Operator.isConstant_of_between
  | fuel + 1, .logical left operator right =>
    simp only [Expr.parts, List.forall_mem_cons, List.forall_mem_append] at hv
    refine (node hf hv.1 ha).bind fun _ o₁ hl₁ _ => ?_
    refine (Expr.keeps hT fuel hl₁.fine (hl₁.occupies ha) hv.2.1).bind fun l o₂ hl₂ hfit => ?_
    refine Keeps.ite (fun _ => Keeps.pure hl₂.fine hfit) fun _ => ?_
    exact Expr.keeps hT fuel hl₂.fine ((hl₁.trans hl₂).occupies ha) hv.2.2
  | fuel + 1, .count operator target _ _ =>
    simp only [Expr.parts, List.forall_mem_cons] at hv
    refine (node hf hv.1 ha).bind fun _ o₁ hl₁ _ => ?_
    refine (Expr.keeps hT fuel hl₁.fine (hl₁.occupies ha) hv.2).bind fun v o₂ hl₂ _ => ?_
    refine (Keeps.operator hl₂.fine operator fun _ =>
      Operator.isConstant_of_counted).bind fun u o₃ hl₃ hfit => ?_
    exact access hl₃.fine hv.1 (((hl₁.trans hl₂).trans hl₃).occupies ha) hfit
  | fuel + 1, .call callee paren args =>
    simp only [Expr.parts, List.forall_mem_cons, List.forall_mem_append] at hv
    refine (node hf hv.1 ha).bind fun _ o₁ hl₁ _ => ?_
    refine (Expr.keeps hT fuel hl₁.fine (hl₁.occupies ha) hv.2.1).bind fun f o₂ hl₂ hfit => ?_
    have hl := hl₁.trans hl₂
    refine (Expr.keepsList hT fuel hl₂.fine (hl.occupies ha) hv.2.2).bind
      fun vs o₃ hl₃ hvs => ?_
    refine (store hl₃.fine).bind fun s o₄ hl₄ ⟨hw, hs⟩ => ?_
    cases harity : s.arity? f with
    | none => exact Keeps.refuse hl₄.fine _ _ _
    | some arity =>
      refine Keeps.ite (fun _ => Keeps.refuse hl₄.fine _ _ _) fun hlen => Keeps.locating ?_
      refine Value.keepsCall hT fuel hl₄.fine (hfit.mono (hl₃.trans hl₄).grows)
        (fun v hv => (hvs v hv).mono hl₄.grows) ?_
      rw [not_ne_iff] at hlen
      rw [hlen, ← harity, hs]
  | fuel + 1, .group _ inner =>
    simp only [Expr.parts, List.forall_mem_cons] at hv
    refine (node hf hv.1 ha).bind fun _ o₁ hl₁ _ => ?_
    exact Expr.keeps hT fuel hl₁.fine (hl₁.occupies ha) hv.2
  | fuel + 1, .get object name =>
    simp only [Expr.parts, List.forall_mem_cons] at hv
    refine (node hf hv.1 ha).bind fun _ o₁ hl₁ _ => ?_
    refine (Expr.keeps hT fuel hl₁.fine (hl₁.occupies ha) hv.2).bind fun target o₂ hl₂ _ => ?_
    cases target with
    | holder of id => exact Keeps.getProperty hl₂.fine of id name
    | _ => exact Keeps.fail hl₂.fine _ _
  | fuel + 1, .set object name value =>
    simp only [Expr.parts, List.forall_mem_cons, List.forall_mem_append] at hv
    refine (node hf hv.1 ha).bind fun _ o₁ hl₁ _ => ?_
    refine (Expr.keeps hT fuel hl₁.fine (hl₁.occupies ha) hv.2.1).bind fun v o₂ hl₂ hfit => ?_
    have hl := hl₁.trans hl₂
    refine (Expr.keeps hT fuel hl₂.fine (hl.occupies ha) hv.2.2).bind fun target o₃ hl₃ _ => ?_
    cases target with
    | holder of id =>
      refine (Keeps.setProperty hl₃.fine id name (hfit.mono hl₃.grows)).bind fun _ o₄ hl₄ _ => ?_
      exact Keeps.pure hl₄.fine (hfit.mono (hl₃.trans hl₄).grows)
    | _ => exact Keeps.fail hl₃.fine _ _
  | fuel + 1, .parent name =>
    exact (node hf (hv _ List.mem_cons_self) ha).bind fun _ _ hl _ => Keeps.parent hl.fine name
  | fuel + 1, .global name =>
    exact (node hf (hv _ List.mem_cons_self) ha).bind fun _ _ hl _ => Keeps.global hl.fine name

theorem Expr.keepsList (hT : T.Plain) (fuel : Nat) {o : Observed} {P : Place} (hf : o.Fine T)
    (ha : o.state.world.Occupies T P o.state.machine.current) {es : List Expr}
    (hv : ∀ part ∈ Expr.partsOfList es, T.visits ⟨.node (.expr part), P⟩) :
    Keeps T [] (Expr.watchList fuel P es) o fun w vs => ∀ v ∈ vs, v.Fits w := by
  match fuel, es with
  | 0, _ => exact throw hf _
  | fuel + 1, [] => exact Keeps.pure hf nofun
  | fuel + 1, e :: es =>
    simp only [Expr.partsOfList, List.forall_mem_append] at hv
    refine (Expr.keeps hT fuel hf ha hv.1).bind fun v o₁ hl₁ hfit => ?_
    refine (Expr.keepsList hT fuel hl₁.fine (hl₁.occupies ha) hv.2).bind fun vs o₂ hl₂ hvs => ?_
    exact Keeps.pure hl₂.fine (List.forall_mem_cons.2 ⟨hfit.mono hl₂.grows, hvs⟩)

theorem Value.keepsCall (hT : T.Plain) (fuel : Nat) {o : Observed} (hf : o.Fine T)
    {callee : Value} {args : List Value} (hc : callee.Fits o.state.world)
    (hargs : ∀ v ∈ args, v.Fits o.state.world)
    (harity : o.state.world.store.arity? callee = some args.length) :
    Keeps T [] (callee.watchCall fuel args) o fun w v => v.Fits w := by
  match fuel, callee with
  | 0, _ => exact throw hf _
  | fuel + 1, .operation id =>
    refine closure hf id fun c o₁ hl₁ hw₁ hget => ?_
    refine (state hl₁.fine).bind fun l o₂ hl₂ ⟨hw₂, horigins⟩ => ?_
    rw [← hw₁, ← hw₂] at hc hargs harity
    rw [← hw₂] at hget
    have hfit := hl₂.fine.sound.fits_operation hc hget
    rw [← horigins] at hfit
    refine Closure.keeps hT fuel hl₂.fine hfit hargs ?_
    simp only [Store.arity?, Store.closureArity, hget] at harity
    exact (Option.some.inj harity).symm
  | fuel + 1, .native n => exact Keeps.native hf n args
  | fuel + 1, .type t =>
    refine (Keeps.addHolder hf).bind fun id o₁ hl₁ ⟨holders, hw₁⟩ => ?_
    refine (store hl₁.fine).bind fun s o₂ hl₂ ⟨hw₂, hs⟩ => ?_
    cases hpilot : s.pilot? t with
    | none => exact Keeps.pure hl₂.fine trivial
    | some pilot =>
      -- the pilot is a method: it is found, bound to the new instance and found again
      refine closure hl₂.fine pilot fun c o₃ hl₃ hw₃ hget => ?_
      refine (state hl₃.fine).bind fun l o₄ hl₄ ⟨hw₄, horigins⟩ => ?_
      have hw : o₄.state.world = o₁.state.world := hw₄.trans (hw₃.trans hw₂)
      rw [← hw₄] at hget
      rw [hs, hw₂, ← hw] at hpilot
      have hfit := hl₄.fine.sound.fits_method (hl₄.fine.sound.isMethod_pilot hpilot) hget
      rw [← horigins] at hfit
      have hlen : args.length = c.arity := by
        have hcall : o₄.state.world.store.arity? (.type t) = some args.length := by
          rw [hw, hw₁]
          exact harity
        simp only [Store.arity?, hpilot, Option.elim, Store.closureArity, hget] at hcall
        exact (Option.some.inj hcall).symm
      have hbind := bindSelf (v := .holder t id) hl₄.fine hfit trivial
      refine hbind.bind fun bound o₅ hl₅ ⟨hcallable, horigin, scope, hbound⟩ => ?_
      refine closure hl₅.fine bound fun c' o₆ hl₆ hw₆ hget' => ?_
      rw [hw₆] at hget'
      obtain rfl := Option.some.inj (hbound.symm.trans hget')
      have hfit' := hl₅.fine.sound.fits_operation hcallable hbound
      rw [horigin, ← hw₆] at hfit'
      have hgrows := (((hl₁.trans hl₂).trans hl₃).trans (hl₄.trans (hl₅.trans hl₆))).grows
      refine (Closure.keeps hT fuel hl₆.fine hfit' (fun v hv => (hargs v hv).mono hgrows)
        hlen).bind fun _ o₇ hl₇ _ => ?_
      exact Keeps.pure hl₇.fine trivial
  | _ + 1, .none | _ + 1, .bool _ | _ + 1, .int _ | _ + 1, .float _ | _ + 1, .text _
  | _ + 1, .holder .. => exact throw hf _

theorem Closure.keeps (hT : T.Plain) (fuel : Nat) {o : Observed} {P : Place} (hf : o.Fine T)
    {closure : Closure} {args : List Value} (hc : closure.Fits T o.state.world ⟨P, true⟩)
    (hargs : ∀ v ∈ args, v.Fits o.state.world) (hlen : args.length = closure.arity) :
    Keeps T [] (closure.watch fuel P args) o fun w v => v.Fits w := by
  match fuel with
  | 0 => exact throw hf _
  | fuel + 1 =>
    have hvisits := hc.visits
    rw [Operation.visits_eq, List.forall_mem_append] at hvisits
    have hpermits : ((P.operation closure.declaration).after
        (closure.declaration.params.map (·.text))).Permits
        (Stmt.declaresList closure.declaration.body) :=
      (Place.permits_enter P closure.declaration.locals).right.after _
    have hbody := opened (R := fun scope w (c : Completion) => c.Reaches T w (((P.operation
      closure.declaration).after (closure.declaration.params.map (·.text))).after
      (Stmt.declaresList closure.declaration.body)) scope) (Keeps.enterCall hf hc hargs hlen)
      fun scope o₁ hl₁ ha =>
      have hmoved : (o₁.moveTo scope).Fine T := ⟨hl₁.fine.sound, hl₁.fine.past⟩
      Stmt.keepsList hT fuel hmoved ha hc.defining hpermits hvisits.2
    rw [Closure.watch, ← bind_assoc]
    refine hbody.bind fun completion o₂ hl₂ ⟨_, hfit⟩ => ?_
    refine (store hl₂.fine).bind fun s o₃ hl₃ ⟨hw, hs⟩ => ?_
    have hself : ∀ v, s.scopes.get? closure.scope selfName = some v → v.Fits o₃.state.world := by
      rw [hs]
      exact hl₃.fine.sound.bindings closure.scope selfName
    rw [← hw] at hfit
    cases hself? : s.scopes.get? closure.scope selfName with
    | none =>
      cases closure.isPilot <;> cases completion with
      | normal => exact Keeps.pure hl₃.fine trivial
      | returned v => exact Keeps.pure hl₃.fine hfit
    | some v =>
      cases closure.isPilot with
      | true => exact Keeps.pure hl₃.fine (hself v hself?)
      | false =>
        cases completion with
        | normal => exact Keeps.pure hl₃.fine trivial
        | returned v => exact Keeps.pure hl₃.fine hfit

theorem Stmt.keeps (hT : T.Plain) (fuel : Nat) {o : Observed} {P : Place} (hf : o.Fine T)
    (ha : o.state.world.Occupies T P o.state.machine.current) (hd : P.defining = none) {s : Stmt}
    (hp : P.Permits s.declares) (hv : ∀ v ∈ s.visits P, T.visits v) :
    Keeps T s.declares (s.watch fuel P) o fun w c =>
      c.Reaches T w (P.after s.declares) o.state.machine.current := by
  match fuel, s with
  | 0, _ => exact throw hf _
  | fuel + 1, .hole =>
    exact (node hf (hv _ List.mem_cons_self) ha).bind fun _ _ hl _ => throw hl.fine _
  | fuel + 1, .expression _ value =>
    simp only [Stmt.visits, List.forall_mem_cons, Expr.visits, List.forall_mem_map] at hv
    refine (node hf hv.1 ha).bind fun _ o₁ hl₁ _ => ?_
    refine (Expr.keeps hT fuel hl₁.fine (hl₁.occupies ha) hv.2).bind fun _ o₂ hl₂ _ => ?_
    exact Keeps.pure hl₂.fine (ha.reaches_nil (hl₁.trans hl₂))
  | fuel + 1, .print _ value =>
    simp only [Stmt.visits, List.forall_mem_cons, Expr.visits, List.forall_mem_map] at hv
    refine (node hf hv.1 ha).bind fun _ o₁ hl₁ _ => ?_
    refine (Expr.keeps hT fuel hl₁.fine (hl₁.occupies ha) hv.2).bind fun _ o₂ hl₂ _ => ?_
    refine (store hl₂.fine).bind fun s o₃ hl₃ _ => (print hl₃.fine _).bind fun _ o₄ hl₄ _ => ?_
    exact Keeps.pure hl₄.fine (ha.reaches_nil ((hl₁.trans hl₂).trans (hl₃.trans hl₄)))
  | fuel + 1, .define ⟨_, name, initial⟩ =>
    simp only [Stmt.visits, List.forall_mem_cons] at hv
    refine (node hf hv.1 ha).bind fun _ o₁ hl₁ _ => ?_
    have hinit := (hl₁.occupies ha).initializer hd (hT _ hv.2.1)
    refine (Expr.keepsOptional hT fuel hl₁.fine hinit hv.2.2).bind fun v o₂ hl₂ hfit => ?_
    have hl := hl₁.trans hl₂
    refine (Keeps.define hl₂.fine (hl.occupies ha).1 hp hfit).followed fun _ o₃ hl₃ hb => ?_
    exact Keeps.pure hl₃.fine (ha.reaches_of_binds hd (hl.trans hl₃) (hl.current ▸ hb))
  | fuel + 1, .block _ body =>
    simp only [Stmt.visits, List.forall_mem_cons] at hv
    refine (node hf hv.1 ha).bind fun _ o₁ hl₁ _ => ?_
    have hbody := opened (R := fun scope w (c : Completion) => c.Reaches T w ((P.enter
      (Stmt.declaresList body)).after (Stmt.declaresList body)) scope)
      (enterScope hl₁.fine hd (hl₁.occupies ha).1 _) fun scope o₂ hl₂ hin =>
      have hmoved : (o₂.moveTo scope).Fine T := ⟨hl₂.fine.sound, hl₂.fine.past⟩
      Stmt.keepsList hT fuel hmoved hin hd (P.permits_enter _) hv.2
    exact hbody.imp fun c o₃ hl₃ ⟨_, hc⟩ => hc.of_activates (ha.reaches_nil (hl₁.trans hl₃))
  | fuel + 1, .operation op =>
    simp only [Stmt.visits, List.forall_mem_cons] at hv
    refine (node hf hv.1 ha).bind fun _ o₁ hl₁ _ => ?_
    refine (declareOperation hl₁.fine hd (hl₁.occupies ha).1 hp hv.2.2).followed
      fun _ o₂ hl₂ hb => ?_
    exact Keeps.pure hl₂.fine (ha.reaches_of_binds hd (hl₁.trans hl₂) (hl₁.current ▸ hb))
  | fuel + 1, .conditional token condition branch arms otherwise =>
    have hnone : T.strict P.program →
        (Stmt.conditional token condition branch arms otherwise).declares = [] :=
      hT ⟨.node (.stmt (.conditional token condition branch arms otherwise)), P⟩
        (hv _ (by rw [Stmt.visits_conditional]; exact List.mem_cons_self))
    rw [Stmt.visits_conditional] at hv
    simp only [List.forall_mem_cons, List.forall_mem_append, Expr.visits,
      List.forall_mem_map] at hv
    obtain ⟨hnode, ⟨⟨hcond, hbranch⟩, harms⟩, hlast⟩ := hv
    rw [Stmt.declares_conditional] at hp hnone ⊢
    have hnone₁ : T.strict P.program → branch.declares ++ Arm.declaresList arms = [] :=
      fun hs => (List.append_eq_nil_iff.1 (hnone hs)).1
    refine (node hf hnode ha).bind fun _ o₁ hl₁ _ => ?_
    refine (Expr.keeps hT fuel hl₁.fine (hl₁.occupies ha) hcond).bind fun v o₂ hl₂ _ => ?_
    have hl := hl₁.trans hl₂
    have ha₂ := hl.occupies ha
    refine Keeps.ite (fun _ => ?_) fun _ => ?_
    · have hrun := Stmt.keeps (P := P.child 0) hT fuel hl₂.fine ha₂ hd hp.left.left hbranch
      exact hrun.branch (by simp) (ha.1.mono hl.grows) hnone
    · have hchoose := Arm.keepsChoose (P := (P.after branch.declares).child 1) hT fuel hl₂.fine
        (ha₂.after_of_strict fun hs => (List.append_eq_nil_iff.1 (hnone₁ hs)).1) hd
        (hp.left.right.after _) (fun hs => (List.append_eq_nil_iff.1 (hnone₁ hs)).2) harms
      refine hchoose.bind fun chosen o₃ hl₃ hchosen => ?_
      have hactive := ha.1.mono (hl.trans hl₃).grows
      cases chosen with
      | some choice =>
        obtain ⟨chosen, Q⟩ := choice
        obtain ⟨hdue, hsub⟩ := hchosen _ rfl
        rw [← hl₃.current] at hdue
        have hrun := Stmt.keeps hT fuel hl₃.fine hdue.occupies hdue.defining hdue.permits
          hdue.visits
        refine hrun.branch (fun x hx => ?_) hactive hnone
        exact List.mem_append_left _ (List.mem_append_right _ (hsub hx))
      | none =>
        cases otherwise with
        | none => exact Keeps.pure hl₃.fine (hactive.after_of_strict hnone)
        | some last =>
          have hrun := Stmt.keeps
            (P := (P.after (branch.declares ++ Arm.declaresList arms)).child 2) hT fuel hl₃.fine
            ((hl₃.occupies ha₂).after_of_strict hnone₁) hd (hp.right.after _) hlast
          exact hrun.branch (List.subset_append_right _ _) hactive hnone
  | fuel + 1, .arm a =>
    simp only [Stmt.visits, List.forall_mem_cons] at hv
    exact (node hf hv.1 ha).bind fun _ _ hl _ => fail hl.fine _ _
  | fuel + 1, .loop token condition body =>
    simp only [Stmt.visits, List.cons_append, List.forall_mem_cons, List.forall_mem_append,
      Expr.visits, List.forall_mem_map] at hv
    have hnone : T.strict P.program → body.declares = [] :=
      hT ⟨.node (.stmt (.loop token condition body)), P⟩ hv.1
    refine (node hf hv.1 ha).bind fun _ o₁ hl₁ _ => ?_
    have hrepeat := Stmt.keepsRepeat hT fuel hl₁.fine (hl₁.occupies ha) hd condition body hp hnone
      hv.2.1 hv.2.2
    rw [hl₁.current] at hrepeat
    exact hrepeat
  | fuel + 1, .return _ value =>
    simp only [Stmt.visits, List.forall_mem_cons] at hv
    refine (node hf hv.1 ha).bind fun _ o₁ hl₁ _ => ?_
    refine (Expr.keepsOptional hT fuel hl₁.fine (hl₁.occupies ha) hv.2).bind
      fun v o₂ hl₂ hfit => ?_
    exact Keeps.pure hl₂.fine hfit
  | fuel + 1, .object _ name methods =>
    simp only [Stmt.visits, List.forall_mem_cons] at hv
    refine (node hf hv.1 ha).bind fun _ o₁ hl₁ _ => ?_
    refine (declareObject hl₁.fine hd (hl₁.occupies ha).1 hp hv.2.2).followed fun _ o₂ hl₂ hb => ?_
    exact Keeps.pure hl₂.fine (ha.reaches_of_binds hd (hl₁.trans hl₂) (hl₁.current ▸ hb))
  | fuel + 1, .enum _ name elements =>
    refine (node hf (hv _ List.mem_cons_self) ha).bind fun _ o₁ hl₁ _ => ?_
    refine (declareEnum hl₁.fine (hl₁.occupies ha).1 hp elements).followed fun _ o₂ hl₂ hb => ?_
    exact Keeps.pure hl₂.fine (ha.reaches_of_binds hd (hl₁.trans hl₂) (hl₁.current ▸ hb))
  | fuel + 1, .form _ name members =>
    simp only [Stmt.visits, List.forall_mem_cons] at hv
    have hname : P.Permits [name.text] := Place.Permits.left (N := [name.text]) hp
    refine (node hf hv.1 ha).bind fun _ o₁ hl₁ _ => ?_
    have ha₁ := hl₁.occupies ha
    have hnamed : Keeps T [name.text] (Watch.lift (Run.define name.text .none)) o₁
        fun w _ => w.Binds o₁.state.machine.current name.text :=
      Keeps.define hl₁.fine ha₁.1 hname trivial
    refine (hnamed.followed (M := members.map (·.name.text) ++ [name.text])
      fun _ o₂ hl₂ hb => ?_).weaken (by simp [Stmt.declares])
    have ha₂ : o₂.state.world.Occupies T (P.after [name.text]) o₂.state.machine.current := by
      rw [hl₂.current]
      exact ha₁.after hd hl₂.frames ((ha₁.1.mono hl₂.grows).after_of_binds hd hb)
    have hmembers := Definition.keepsMembers hT fuel hl₂.fine ha₂ hd
      ((Place.Permits.right (N := [name.text]) hp).after _) hv.2.2 .empty nofun
    refine hmembers.followed fun all o₃ hl₃ ⟨hall, hafter⟩ => ?_
    rw [← Place.after_cons, hl₂.current, hl₁.current] at hafter
    have hl := hl₁.trans (hl₂.trans hl₃)
    refine (declareForm hl₃.fine (hl.activates ha.1) hname hall).followed fun _ o₄ hl₄ _ => ?_
    exact Keeps.pure hl₄.fine (hafter.mono hl₄.grows)

theorem Expr.keepsOptional (hT : T.Plain) (fuel : Nat) {o : Observed} {P : Place} (hf : o.Fine T)
    (ha : o.state.world.Occupies T P o.state.machine.current) {e? : Option Expr}
    (hv : ∀ v ∈ Expr.visitsOptional P e?, T.visits v) :
    Keeps T [] (Expr.watchOptional fuel P e?) o fun w v => v.Fits w := by
  match fuel, e? with
  | 0, _ => exact throw hf _
  | fuel + 1, none => exact Keeps.pure hf trivial
  | fuel + 1, some e =>
    simp only [Expr.visitsOptional, Expr.visits, List.forall_mem_map] at hv
    exact Expr.keeps hT fuel hf ha hv

theorem Stmt.keepsList (hT : T.Plain) (fuel : Nat) {o : Observed} {P : Place} (hf : o.Fine T)
    (ha : o.state.world.Occupies T P o.state.machine.current) (hd : P.defining = none)
    {ss : List Stmt} (hp : P.Permits (Stmt.declaresList ss))
    (hv : ∀ v ∈ Stmt.visitsOfList P ss, T.visits v) :
    Keeps T (Stmt.declaresList ss) (Stmt.watchList fuel P ss) o fun w c =>
      c.Reaches T w (P.after (Stmt.declaresList ss)) o.state.machine.current := by
  match fuel, ss with
  | 0, _ => exact throw hf _
  | fuel + 1, [] => exact Keeps.pure hf (ha.reaches_nil (hf.leads (N := [])))
  | fuel + 1, s :: ss =>
    simp only [Stmt.visitsOfList, List.forall_mem_append] at hv
    have hfirst := Stmt.keeps (P := P.child 0) hT fuel hf ha hd hp.left hv.1
    refine hfirst.followed fun c o₁ hl₁ hc => ?_
    cases c with
    | returned v => exact Keeps.pure hl₁.fine hc
    | normal =>
      have ha₁ := ha.after hd hl₁.frames hc
      rw [← hl₁.current] at ha₁
      have hrest := Stmt.keepsList (P := (P.after s.declares).child 1) hT fuel hl₁.fine ha₁ hd
        (hp.right.after _) hv.2
      rw [Stmt.declaresList, Place.after_append, ← hl₁.current]
      exact hrest

theorem Arm.keepsChoose (hT : T.Plain) (fuel : Nat) {o : Observed} {P : Place} (hf : o.Fine T)
    (ha : o.state.world.Occupies T P o.state.machine.current) (hd : P.defining = none)
    {arms : List Arm} (hp : P.Permits (Arm.declaresList arms))
    (hnone : T.strict P.program → Arm.declaresList arms = [])
    (hv : ∀ v ∈ Arm.visitsOfList P arms, T.visits v) :
    Keeps T [] (Arm.watchChoose fuel P arms) o fun w chosen => ∀ c ∈ chosen,
      c.1.Due T w o.state.machine.current c.2 ∧ c.1.declares ⊆ Arm.declaresList arms := by
  match fuel, arms with
  | 0, _ => exact throw hf _
  | fuel + 1, [] => exact Keeps.pure hf nofun
  | fuel + 1, ⟨_, condition, branch⟩ :: rest =>
    simp only [Arm.visitsOfList, List.cons_append, List.forall_mem_cons, List.forall_mem_append,
      Arm.visits, Expr.visits, List.forall_mem_map] at hv
    obtain ⟨-, ⟨hcond, hbranch⟩, hrest⟩ := hv
    have hnone' : T.strict P.program → branch.declares = [] ∧ Arm.declaresList rest = [] :=
      fun hs => List.append_eq_nil_iff.1 (hnone hs)
    refine (Expr.keeps (P := P.child 0) hT fuel hf ha hcond).bind fun v o₁ hl₁ _ => ?_
    have hlater := Arm.keepsChoose (P := (P.after branch.declares).child 1) hT fuel hl₁.fine
      ((hl₁.occupies ha).after_of_strict fun hs => (hnone' hs).1) hd (hp.right.after _)
      (fun hs => (hnone' hs).2) hrest
    refine hlater.bind fun later o₂ hl₂ hchosen => ?_
    have hfirst : branch.Due T o₂.state.world o.state.machine.current (P.child 0) := by
      have hl := hl₁.trans hl₂
      have ha₂ := hl.occupies ha
      rw [hl.current] at ha₂
      exact ⟨ha₂, hd, hp.left, hbranch⟩
    rw [hl₁.current] at hchosen
    have hothers : ∀ c ∈ later, c.1.Due T o₂.state.world o.state.machine.current c.2 ∧
        c.1.declares ⊆ branch.declares ++ Arm.declaresList rest :=
      fun c hc => ⟨(hchosen c hc).1, fun x hx => List.mem_append_right _ ((hchosen c hc).2 hx)⟩
    split
    · exact Keeps.pure hl₂.fine hothers
    · refine Keeps.pure hl₂.fine ?_
      rintro _ ⟨⟩
      exact ⟨hfirst, List.subset_append_left _ _⟩
    · exact Keeps.pure hl₂.fine hothers

theorem Stmt.keepsRepeat (hT : T.Plain) (fuel : Nat) {o : Observed} {P : Place} (hf : o.Fine T)
    (ha : o.state.world.Occupies T P o.state.machine.current) (hd : P.defining = none)
    (condition : Expr) (body : Stmt) (hp : P.Permits body.declares)
    (hnone : T.strict P.program → body.declares = [])
    (hcond : ∀ part ∈ condition.parts, T.visits ⟨.node (.expr part), P⟩)
    (hv : ∀ v ∈ body.visits (P.child 0), T.visits v) :
    Keeps T body.declares (Stmt.watchRepeat fuel P condition body) o fun w c =>
      c.Reaches T w (P.after body.declares) o.state.machine.current := by
  match fuel with
  | 0 => exact throw hf _
  | fuel + 1 =>
    refine (Expr.keeps hT fuel hf ha hcond).bind fun v o₁ hl₁ _ => ?_
    have ha₁ := hl₁.occupies ha
    refine Keeps.ite (fun _ => ?_) fun _ => ?_
    · have hbody := Stmt.keeps (P := P.child 0) hT fuel hl₁.fine ha₁ hd hp hv
      refine (hbody.followed (M := body.declares) fun c o₂ hl₂ hc => ?_).weaken (by simp)
      cases c with
      | returned v => exact Keeps.pure hl₂.fine hc
      | normal =>
        have hagain := Stmt.keepsRepeat hT fuel hl₂.fine (hl₂.occupies_of_strict hnone ha₁) hd
          condition body hp hnone hcond hv
        rw [hl₂.current, hl₁.current] at hagain
        exact hagain
    · exact Keeps.pure hl₁.fine ((ha.1.mono hl₁.grows).after_of_strict hnone)

theorem Definition.keepsMembers (hT : T.Plain) (fuel : Nat) {o : Observed} {P : Place}
    (hf : o.Fine T) (ha : o.state.world.Occupies T P o.state.machine.current)
    (hd : P.defining = none) {members : List Definition}
    (hp : P.Permits (members.map (·.name.text)))
    (hv : ∀ v ∈ Definition.visitsOfMembers P members, T.visits v) (done : NameMap Value)
    (hdone : ∀ x v, done.get? x = some v → v.Fits o.state.world) :
    Keeps T (members.map (·.name.text)) (Definition.watchMembers fuel P members done) o fun w all =>
      (∀ x v, all.get? x = some v → v.Fits w) ∧
        w.Activates T (P.after (members.map (·.name.text))) o.state.machine.current := by
  match fuel, members with
  | 0, _ => exact throw hf _
  | fuel + 1, [] => exact Keeps.pure hf ⟨hdone, ha.reaches_nil (hf.leads (N := []))⟩
  | fuel + 1, ⟨_, name, initial⟩ :: rest =>
    simp only [Definition.visitsOfMembers, List.cons_append, List.forall_mem_cons,
      List.forall_mem_append] at hv
    obtain ⟨-, hinit, -, hrest⟩ := hv
    have hname : P.Permits [name.text] := Place.Permits.left (N := [name.text]) hp
    refine (Expr.keepsOptional hT fuel hf ha hinit).bind fun v o₁ hl₁ hfit => ?_
    have ha₁ := hl₁.occupies ha
    refine (Keeps.define hl₁.fine ha₁.1 hname hfit).followed fun _ o₂ hl₂ hb => ?_
    have ha₂ : o₂.state.world.Occupies T (P.after [name.text]) o₂.state.machine.current := by
      rw [hl₂.current]
      exact ha₁.after hd hl₂.frames ((ha₁.1.mono hl₂.grows).after_of_binds hd hb)
    have hgrows := (hl₁.trans hl₂).grows
    have hall : ∀ x u, (done.insert name.text v).get? x = some u → u.Fits o₂.state.world := by
      intro x u hu
      rw [NameMap.get?_insert] at hu
      split at hu
      · obtain rfl := Option.some.inj hu
        exact hfit.mono hl₂.grows
      · exact (hdone x u hu).mono hgrows
    have hmore := Definition.keepsMembers hT fuel hl₂.fine ha₂ hd
      ((Place.Permits.right (N := [name.text]) hp).after _) hrest _ hall
    rw [hl₂.current, hl₁.current, ← Place.after_cons] at hmore
    exact hmore

end

theorem World.Activates.occupies_of_top {w : World} {P : Place} {i : ScopeId} (hl : P.layers = [])
    (ha : w.Activates T P i) : w.Occupies T P i := by
  refine ⟨ha, fun _ layer hlayer => ?_⟩
  rw [hl] at hlayer
  exact absurd hlayer nofun

/-- At top level a statement that returns does not end the program. -/
theorem Program.keeps (hT : T.Plain) (fuel : Nat) {o : Observed} {P : Place} (hf : o.Fine T)
    (ha : o.state.world.Activates T P o.state.machine.current) (hd : P.defining = none)
    (hl : P.layers = []) {p : Program} (hv : ∀ v ∈ Stmt.visitsOfList P p, T.visits v) :
    Keeps T (Stmt.declaresList p) (Program.watch fuel P p) o fun _ _ => True := by
  induction p generalizing o P with
  | nil => exact Keeps.pure hf trivial
  | cons s rest ih =>
    simp only [Stmt.visitsOfList, List.forall_mem_append] at hv
    have htop : P.after s.declares = P := by
      obtain ⟨_, _, layers, _, _, _⟩ := P
      obtain rfl : layers = [] := hl
      rfl
    rw [htop] at hv
    have hpermits : P.Permits s.declares := by
      rw [Place.Permits, hl]
      exact nofun
    have hfirst := Stmt.keeps (P := P.child 0) hT fuel hf (ha.occupies_of_top hl) hd hpermits hv.1
    rw [Program.watch, htop]
    exact hfirst.followed fun _ o₁ hl₁ _ =>
      ih (P := P.child 1) hl₁.fine (hl₁.activates ha) hd hl hv.2

end Treescript
