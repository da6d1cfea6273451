import Treescript.Proofs.PairedSteps

/-!
# Runs of paired machines

A program and a revision of it, run on paired machines, do the same. `Contracts` lists what this
means for each of the functions that evaluation is made of, at given amounts of fuel. One step of
evaluation keeps the contracts when its parts do, and induction on the fuel gives them all.
-/

namespace Treescript

structure Contracts (L : Licence) (side : Side) (n n' : Nat) : Prop where
  expr : ∀ {t : Pairing} {fs : List Frame} {e : Expr}, t.Sound L → t.At fs → e.Revisable L fs →
    Agree L side t (e.eval n) ((e.revise fs).eval n') Value.Alike
  list : ∀ {t : Pairing} {fs : List Frame} {es : List Expr}, t.Sound L → t.At fs →
    (∀ part ∈ Expr.partsOfList es, part.Allows L fs) →
    Agree L side t (Expr.evalList n es) (Expr.evalList n' (Expr.relabelList (Frame.label fs) es))
      fun u vs vs' => vs' = vs ∧ ∀ v ∈ vs, v.Usable u
  call : ∀ {t : Pairing} {v : Value} {args : List Value}, t.Sound L → v.Usable t →
    (∀ a ∈ args, a.Usable t) → Agree L side t (v.call n args) (v.call n' args) Value.Alike
  closure : ∀ {t : Pairing} {id : Nat} {c c' : Closure} {args : List Value}, t.Sound L →
    c.Pairs L t id c' → t.callable id → (∀ a ∈ args, a.Usable t) →
    Agree L side t (c.call n args) (c'.call n' args) Value.Alike
  stmt : ∀ {t : Pairing} {fs : List Frame} {s s' : Stmt}, t.Sound L → t.At fs →
    s.Revises L fs s' → Agree L side t (s.exec n) (s'.exec n') Completion.Alike
  optional : ∀ {t : Pairing} {fs : List Frame} {e? : Option Expr}, t.Sound L → t.At fs →
    (∀ e ∈ e?, e.Revisable L fs) →
    Agree L side t (Expr.evalOptional n e?) (Expr.evalOptional n' (e?.map (·.revise fs)))
      Value.Alike
  stmts : ∀ {t : Pairing} {fs : List Frame} {ss ss' : List Stmt}, t.Sound L → t.At fs →
    Stmt.RevisesList L fs ss ss' →
    Agree L side t (Stmt.execList n ss) (Stmt.execList n' ss') Completion.Alike
  arms : ∀ {t : Pairing} {fs : List Frame} {as as' : List Arm}, t.Sound L → t.At fs →
    Arm.RevisesList L fs as as' → Agree L side t (Arm.choose n as) (Arm.choose n' as')
      fun _ chosen chosen' => Option.Rel (Stmt.Revises L fs) chosen chosen'
  loop : ∀ {t : Pairing} {fs : List Frame} {condition : Expr} {body body' : Stmt}, t.Sound L →
    t.At fs → condition.Revisable L fs → body.Revises L fs body' →
    Agree L side t (Stmt.repeat n condition body) (Stmt.repeat n' (condition.revise fs) body')
      Completion.Alike
  members : ∀ {t : Pairing} {fs : List Frame} {names : Equiv.Perm String} {ds : List Definition}
    {made : NameMap Value}, t.Sound L → t.At fs → Frame.here? fs = some names →
    (∀ d ∈ ds, names d.name.text = d.name.text ∧ ∀ e ∈ d.initial, e.Revisable L fs) →
    (∀ x v, made.get? x = some v → v.Usable t) →
    Agree L side t (Definition.evalMembers n ds made)
      (Definition.evalMembers n' (ds.map (·.reviseInitial fs)) made)
      fun u made made' => made' = made ∧ ∀ x v, made.get? x = some v → v.Usable u

variable {L : Licence} {side : Side} {t : Pairing} {fs : List Frame} {j i n' : Nat}

namespace Side.Covers

theorem of_succ {slack : Nat} (hpos : 0 < slack) (h : side.Covers slack (j + 1) n') :
    (side = .second ∧ n' = 0) ∨ ∃ i, n' = i + 1 ∧ side.Covers slack j i := by
  cases side with
  | first =>
    have hle : slack * j + slack ≤ n' := h
    exact .inr ⟨n' - 1, by omega, show slack * j ≤ n' - 1 by omega⟩
  | second =>
    cases n' with
    | zero => exact .inl ⟨rfl, rfl⟩
    | succ i => exact .inr ⟨i, rfl, Nat.le_of_succ_le_succ h⟩

/-- Two more steps are covered where the slack is three. -/
theorem of_succ_of_le {slack : Nat} (hslack : 3 ≤ slack) (h : side.Covers slack (j + 1) n') :
    (side = .second ∧ n' ≤ 2) ∨ ∃ i, n' = i + 3 ∧ side.Covers slack j i := by
  cases side with
  | first =>
    have hle : slack * j + slack ≤ n' := h
    exact .inr ⟨n' - 3, by omega, show slack * j ≤ n' - 3 by omega⟩
  | second =>
    have hle : n' ≤ j + 1 := h
    by_cases hn : n' ≤ 2
    · exact .inl ⟨rfl, hn⟩
    · exact .inr ⟨n' - 3, by omega, show n' - 3 ≤ j by omega⟩

end Side.Covers

theorem Contracts.first_zero (n' : Nat) : Contracts L .first 0 n' := by
  constructor <;> intros <;> exact .inl rfl

theorem Contracts.second_zero (n : Nat) : Contracts L .second n 0 := by
  constructor <;> intros <;> exact .inl rfl

theorem Expr.agree (hc : Contracts L side j i) (h : t.Sound L) (hat : t.At fs) {e : Expr}
    (hr : e.Revisable L fs) :
    Agree L side t (e.eval (j + 1)) ((e.revise fs).eval (i + 1)) Value.Alike := by
  match e with
  | .hole => exact .fault h
  | .literal _ value => exact .pure h ⟨rfl, (Value.isConstant_ofLiteral value).usable t⟩
  | .variable name hops =>
    exact .lookup h hat name.text hops (h.twins hat hops (hr _ (List.mem_singleton_self _)))
  | .self keyword hops =>
    have hself := L.self_eq _ ((hat.licensed h.aligned).namingOf hops)
    have hlookup : Agree L side t (Run.lookup keyword selfName hops)
        (Run.lookup keyword (Frame.namingOf fs hops selfName) (hops.map (Frame.shift fs)))
        Value.Alike := .lookup h hat selfName hops (by rw [hself]; exact .same _)
    rwa [hself] at hlookup
  | .assign name value hops =>
    rw [Expr.Revisable, Expr.parts, List.forall_mem_cons] at hr
    refine (hc.expr h hat hr.2).bind fun u v v' hg hu ⟨hv, husable⟩ => ?_
    subst hv
    exact .assign hu (hat.mono hg) name hops hr.1 husable
  | .unary operator right =>
    rw [Expr.Revisable, Expr.parts, List.forall_mem_cons] at hr
    refine (hc.expr h hat hr.2).bind fun u v v' _ hu ⟨hv, _⟩ => ?_
    subst hv
    exact .operator hu operator fun _ => Operator.isConstant_of_prefixed
  | .binary left operator right =>
    rw [Expr.Revisable, Expr.parts, List.forall_mem_cons, List.forall_mem_append] at hr
    refine (hc.expr h hat hr.2.1).bind fun u l l' hg hu ⟨hl, _⟩ => ?_
    subst hl
    refine (hc.expr hu (hat.mono hg) hr.2.2).bind fun w r r' _ hw ⟨hr, _⟩ => ?_
    subst hr
    exact .between hw operator l' r'
  | .logical left operator right =>
    rw [Expr.Revisable, Expr.parts, List.forall_mem_cons, List.forall_mem_append] at hr
    refine (hc.expr h hat hr.2.1).bind fun u l l' hg hu ⟨hl, husable⟩ => ?_
    subst hl
    exact .ite (fun _ => .pure hu ⟨rfl, husable⟩) fun _ => hc.expr hu (hat.mono hg) hr.2.2
  | .count operator target name hops =>
    rw [Expr.Revisable, Expr.parts, List.forall_mem_cons] at hr
    refine (hc.expr h hat hr.2).bind fun u v v' hg hu ⟨hv, _⟩ => ?_
    subst hv
    refine (Agree.operator hu operator fun _ => Operator.isConstant_of_counted).bind
      fun w v v' hg' hw ⟨hv, husable⟩ => ?_
    subst hv
    exact .assign hw (hat.mono (hg.trans hg')) name hops hr.1 husable
  | .call callee paren args =>
    rw [Expr.Revisable, Expr.parts, List.forall_mem_cons, List.forall_mem_append] at hr
    refine (hc.expr h hat hr.2.1).bind fun u v v' hg hu ⟨hv, hcallee⟩ => ?_
    subst hv
    refine (hc.list hu (hat.mono hg) hr.2.2).bind fun w vs vs' hg' hw ⟨hvs, hargs⟩ => ?_
    subst hvs
    refine (Agree.store hw).bind fun w' s s' _ _ ⟨hw', hs, hs'⟩ => ?_
    subst hw' hs hs'
    rw [hw.arity?_eq]
    cases w'.first.store.arity? v' with
    | none => exact .refuse hw paren _ _
    | some arity =>
      exact .ite (fun _ => .refuse hw paren _ _) fun _ =>
        (hc.call hw (hcallee.mono hg') hargs).locating paren
  | .group _ inner =>
    rw [Expr.Revisable, Expr.parts, List.forall_mem_cons] at hr
    exact hc.expr h hat hr.2
  | .get object name =>
    rw [Expr.Revisable, Expr.parts, List.forall_mem_cons] at hr
    refine (hc.expr h hat hr.2).bind fun u v v' _ hu ⟨hv, _⟩ => ?_
    subst hv
    cases v' with
    | holder of id => exact .getProperty hu of id name
    | _ => exact .fail hu name _
  | .set object name value =>
    rw [Expr.Revisable, Expr.parts, List.forall_mem_cons, List.forall_mem_append] at hr
    refine (hc.expr h hat hr.2.1).bind fun u v v' hg hu ⟨hv, husable⟩ => ?_
    subst hv
    refine (hc.expr hu (hat.mono hg) hr.2.2).bind fun w o o' hg' hw ⟨ho, _⟩ => ?_
    subst ho
    cases o' with
    | holder of id =>
      refine (Agree.setProperty hw id name (husable.mono hg')).bind fun w _ _ _ hw husable => ?_
      exact .pure hw ⟨rfl, husable⟩
    | _ => exact .fail hw name _
  | .parent name => exact .parent h hat (hr _ (List.mem_singleton_self _)) name j i
  | .global name => exact .global h name j i

theorem Expr.agreeList (hc : Contracts L side j i) (h : t.Sound L) (hat : t.At fs)
    {es : List Expr} (hr : ∀ part ∈ Expr.partsOfList es, part.Allows L fs) :
    Agree L side t (Expr.evalList (j + 1) es)
      (Expr.evalList (i + 1) (Expr.relabelList (Frame.label fs) es))
      fun u vs vs' => vs' = vs ∧ ∀ v ∈ vs, v.Usable u := by
  match es with
  | [] => exact .pure h ⟨rfl, List.forall_mem_nil _⟩
  | e :: es =>
    rw [Expr.partsOfList, List.forall_mem_append] at hr
    refine (hc.expr h hat hr.1).bind fun u v v' hg hu ⟨hv, husable⟩ => ?_
    subst hv
    refine (hc.list hu (hat.mono hg) hr.2).bind fun w vs vs' hg' hw ⟨hvs, hall⟩ => ?_
    subst hvs
    exact .pure hw ⟨rfl, List.forall_mem_cons.2 ⟨husable.mono hg', hall⟩⟩

theorem Expr.agreeOptional (hc : Contracts L side j i) (h : t.Sound L) (hat : t.At fs)
    {e? : Option Expr} (hr : ∀ e ∈ e?, e.Revisable L fs) :
    Agree L side t (Expr.evalOptional (j + 1) e?)
      (Expr.evalOptional (i + 1) (e?.map (·.revise fs))) Value.Alike := by
  match e? with
  | none => exact .pure h ⟨rfl, trivial⟩
  | some e => exact hc.expr h hat (hr e rfl)

theorem Value.agree (hc : Contracts L side j i) (h : t.Sound L) {v : Value} (hv : v.Usable t)
    {args : List Value} (hargs : ∀ a ∈ args, a.Usable t) :
    Agree L side t (v.call (j + 1) args) (v.call (i + 1) args) Value.Alike := by
  match v with
  | .none | .bool _ | .int _ | .float _ | .text _ | .holder .. => exact .fault h
  | .native n => exact .native h n args j i
  | .operation id => exact .closure h id fun c c' hp => hc.closure h hp hv.2 hargs
  | .type of =>
    refine (Agree.addHolder h).bind fun u holder holder' hg hu hid => ?_
    subst hid
    refine (Agree.store hu).bind fun w s s' _ _ ⟨hw, hs, hs'⟩ => ?_
    subst hw hs hs'
    rw [hu.pilot?_eq]
    have hself : Value.Usable w (.holder of holder') := trivial
    cases hpilot : w.first.store.pilot? of with
    | none => exact .pure hu ⟨rfl, hself⟩
    | some pilot =>
      have hb := hu.bindable_of_pilot? hpilot
      refine .closure hu pilot fun c c' hp => ?_
      refine (Agree.bindSelf hu hp hb hself).bind fun u bound bound' hg' hu ⟨hid, hbound⟩ => ?_
      subst hid
      refine .closure hu bound' fun c c' hp => ?_
      have hargs' : ∀ a ∈ args, a.Usable u := fun a ha => (hargs a ha).mono (hg.trans hg')
      refine (hc.closure hu hp hbound.2 hargs').bind fun w _ _ _ hw _ => ?_
      exact .pure hw ⟨rfl, trivial⟩

theorem Closure.agree (hc : Contracts L side j i) (h : t.Sound L) {id : Nat} {c c' : Closure}
    (hp : c.Pairs L t id c') (hcall : t.callable id) {args : List Value}
    (hargs : ∀ a ∈ args, a.Usable t) :
    Agree L side t (c.call (j + 1) args) (c'.call (i + 1) args) Value.Alike := by
  have hrev := hp.callable hcall
  match c, c', hp, hrev with
  | ⟨_, scope, isPilot⟩, ⟨_, scope', isPilot'⟩, hp, .mk hr hbody =>
    have hpilot : isPilot = isPilot' := hp.isPilot.symm
    subst hpilot
    refine (Agree.enterCall h hp.lt hp.scope hr rfl hargs).bind fun u k k' hg hu hs => ?_
    have hrun := hc.stmts (hu.moveTo k k') (hs.moveTo k k') hbody
    refine (hrun.within fun _ _ _ hq => hq.moveTo _ _).bind fun w done done' hg' hw hdone => ?_
    refine (Agree.store hw).bind fun w' s s' _ _ ⟨hw', hs, hs'⟩ => ?_
    subst hw' hs hs'
    -- `self` is looked up beside the scope of the operation, and keeps its name
    have hlt : scope < w'.first.store.scopes.size := hp.lt.trans_le (hg.trans hg').scopes_le
    have himage : scope' = w'.image scope := hp.scope.trans ((hg.trans hg').image scope hp.lt).symm
    have hself : w'.second.store.scopes.get? scope' selfName =
        w'.first.store.scopes.get? scope selfName := by
      have hget := hw.aligned.get scope hlt selfName
      rwa [L.self_eq _ ((hw.aligned.names scope hlt).2.naming 0), ← himage] at hget
    dsimp only
    rw [hself]
    match done, done', hdone with
    | .normal, .normal, _ =>
      cases isPilot with
      | false => exact .pure hw ⟨rfl, trivial⟩
      | true =>
        cases hv : w'.first.store.scopes.get? scope selfName with
        | none => exact .pure hw ⟨rfl, trivial⟩
        | some v => exact .pure hw ⟨rfl, hw.values scope selfName v hv⟩
    | .returned r, .returned r', hr =>
      cases isPilot with
      | false => exact .pure hw hr
      | true =>
        cases hv : w'.first.store.scopes.get? scope selfName with
        | none => exact .pure hw hr
        | some v => exact .pure hw ⟨rfl, hw.values scope selfName v hv⟩

theorem Stmt.agree_of_alters (hc : Contracts L side j i) (h : t.Sound L) (hat : t.At fs)
    {s s' : Stmt} (hs : s.Alters L fs s') :
    Agree L side t (s.exec (j + 1)) (s'.exec (i + 1)) Completion.Alike := by
  cases hs with
  | hole => exact .fault h
  | expression hr => exact (hc.expr h hat hr).bind fun u _ _ _ hu _ => .pure hu trivial
  | print hr =>
    refine (hc.expr h hat hr).bind fun u v v' _ hu ⟨hv, _⟩ => ?_
    subst hv
    refine (Agree.store hu).bind fun w s s' _ _ ⟨hw, hs, hs'⟩ => ?_
    subst hw hs hs'
    rw [hu.display_eq]
    exact (Agree.emit hu _).bind fun w _ _ _ hw _ => .pure hw trivial
  | define hhere hr =>
    refine (hc.optional h hat hr).bind fun u v v' hg hu ⟨hv, husable⟩ => ?_
    subst hv
    exact (Agree.define hu (hat.mono hg) hhere _ husable).bind fun w _ _ _ hw _ =>
      .pure hw trivial
  | block hr hbody => exact .opened h hat hr fun u hu hat => hc.stmts hu hat hbody
  | operation hhere hname hr => exact .declareOperation h hat hhere hname hr
  | conditional hr hbranch harms =>
    refine (hc.expr h hat hr).bind fun u v v' hg hu ⟨hv, _⟩ => ?_
    subst hv
    have hat := hat.mono hg
    refine .ite (fun _ => hc.stmt hu hat hbranch) fun _ => ?_
    refine (hc.arms hu hat harms).bind fun w chosen chosen' hg' hw hchosen => ?_
    cases hchosen with
    | none => exact .pure hw trivial
    | some hchosen => exact hc.stmt hw (hat.mono hg') hchosen
  | otherwise hr hbranch harms hlast =>
    refine (hc.expr h hat hr).bind fun u v v' hg hu ⟨hv, _⟩ => ?_
    subst hv
    have hat := hat.mono hg
    refine .ite (fun _ => hc.stmt hu hat hbranch) fun _ => ?_
    refine (hc.arms hu hat harms).bind fun w chosen chosen' hg' hw hchosen => ?_
    cases hchosen with
    | none => exact hc.stmt hw (hat.mono hg') hlast
    | some hchosen => exact hc.stmt hw (hat.mono hg') hchosen
  | arm ha =>
    cases ha
    exact .fail h _ _
  | loop hr hbody => exact hc.loop h hat hr hbody
  | «return» hr =>
    refine (hc.optional h hat hr).bind fun u v v' _ hu hv => ?_
    exact .pure hu hv
  | object hhere hname hr =>
    exact (Agree.declareObject h hat hhere hname hr).bind fun u _ _ _ hu _ => .pure hu trivial
  | enum hhere hname =>
    exact (Agree.declareEnum h hat hhere hname _).bind fun u _ _ _ hu _ => .pure hu trivial
  | form hhere hname hr =>
    have hnone : Value.none.Usable t := trivial
    refine (Agree.define_fixed h hat hhere hname hnone).bind fun u _ _ hg hu _ => ?_
    have hat := hat.mono hg
    have hempty : ∀ x v, (NameMap.empty : NameMap Value).get? x = some v → v.Usable u := nofun
    refine (hc.members hu hat hhere hr hempty).bind fun w made made' hg' hw ⟨hm, hmade⟩ => ?_
    subst hm
    exact (Agree.declareForm hw (hat.mono hg') hhere hname hmade).bind fun w _ _ _ hw _ =>
      .pure hw trivial

theorem Stmt.agreeList (hc : Contracts L side j i) (h : t.Sound L) (hat : t.At fs)
    {ss ss' : List Stmt} (hs : Stmt.RevisesList L fs ss ss') :
    Agree L side t (Stmt.execList (j + 1) ss) (Stmt.execList (i + 1) ss') Completion.Alike := by
  cases hs with
  | nil => exact .pure h trivial
  | cons hs hss =>
    refine (hc.stmt h hat hs).bind fun u done done' hg hu hdone => ?_
    match done, done', hdone with
    | .normal, .normal, _ => exact hc.stmts hu (hat.mono hg) hss
    | .returned _, .returned _, hv => exact .pure hu hv

theorem Arm.agreeChoose (hc : Contracts L side j i) (h : t.Sound L) (hat : t.At fs)
    {as as' : List Arm} (hs : Arm.RevisesList L fs as as') :
    Agree L side t (Arm.choose (j + 1) as) (Arm.choose (i + 1) as')
      fun _ chosen chosen' => Option.Rel (Stmt.Revises L fs) chosen chosen' := by
  cases hs with
  | nil => exact .pure h .none
  | cons ha has =>
    cases ha with
    | @mk _ _ _ branch _ hr hbranch =>
      refine (hc.expr h hat hr).bind fun u v v' hg hu ⟨hv, _⟩ => ?_
      subst hv
      refine (hc.arms hu (hat.mono hg) has).bind fun w later later' _ hw hlater => ?_
      cases v'.isTruthy with
      | false => exact .pure hw hlater
      | true =>
        -- an arm without a branch is passed over, and a revision of its branch is missing too
        have hchosen := hbranch
        cases hbranch with
        | wrapped _ hne =>
          cases branch with
          | hole => exact absurd rfl hne
          | _ => exact .pure hw (.some hchosen)
        | plain ha =>
          cases ha with
          | hole => exact .pure hw hlater
          | _ => exact .pure hw (.some hchosen)

theorem Stmt.agreeRepeat (hc : Contracts L side j i) (h : t.Sound L) (hat : t.At fs)
    {condition : Expr} (hr : condition.Revisable L fs) {body body' : Stmt}
    (hb : body.Revises L fs body') :
    Agree L side t (Stmt.repeat (j + 1) condition body)
      (Stmt.repeat (i + 1) (condition.revise fs) body') Completion.Alike := by
  refine (hc.expr h hat hr).bind fun u v v' hg hu ⟨hv, _⟩ => ?_
  subst hv
  refine .ite (fun _ => ?_) fun _ => .pure hu trivial
  refine (hc.stmt hu (hat.mono hg) hb).bind fun w done done' hg' hw hdone => ?_
  match done, done', hdone with
  | .normal, .normal, _ => exact hc.loop hw (hat.mono (hg.trans hg')) hr hb
  | .returned _, .returned _, hv => exact .pure hw hv

theorem Definition.agreeMembers (hc : Contracts L side j i) (h : t.Sound L) (hat : t.At fs)
    {names : Equiv.Perm String} (hhere : Frame.here? fs = some names) {ds : List Definition}
    (hr : ∀ d ∈ ds, names d.name.text = d.name.text ∧ ∀ e ∈ d.initial, e.Revisable L fs)
    {made : NameMap Value} (hmade : ∀ x v, made.get? x = some v → v.Usable t) :
    Agree L side t (Definition.evalMembers (j + 1) ds made)
      (Definition.evalMembers (i + 1) (ds.map (·.reviseInitial fs)) made)
      fun u made made' => made' = made ∧ ∀ x v, made.get? x = some v → v.Usable u := by
  match ds with
  | [] => exact .pure h ⟨rfl, hmade⟩
  | ⟨_, name, initial⟩ :: ds =>
    obtain ⟨⟨hname, hinitial⟩, hds⟩ := List.forall_mem_cons.1 hr
    refine (hc.optional h hat hinitial).bind fun u v v' hg hu ⟨hv, husable⟩ => ?_
    subst hv
    refine (Agree.define_fixed hu (hat.mono hg) hhere hname husable).bind
      fun w _ _ hg' hw _ => ?_
    refine hc.members hw (hat.mono (hg.trans hg')) hhere hds fun x v hv => ?_
    rw [NameMap.get?_insert] at hv
    split at hv
    · obtain rfl := Option.some.inj hv
      exact husable.mono hg'
    · exact (hmade x v hv).mono (hg.trans hg')

theorem Stmt.execList_singleton (s : Stmt) (n : Nat) :
    Stmt.execList (n + 2) [s] = s.exec (n + 1) := by
  rw [Stmt.execList]
  conv_rhs => rw [← bind_pure (s.exec (n + 1))]
  congr 1
  funext done
  cases done <;> rfl

theorem Stmt.exec_wrapped (token : Token) (s : Stmt) (n : Nat) :
    (Stmt.block token [s]).exec (n + 3) = (do
      let current := (← get).current
      let scope ← Run.onStore (·.enterScope current)
      Run.within scope (s.exec (n + 1))) := by
  rw [Stmt.exec, Stmt.execList_singleton]

/-- A statement that gets a block of its own is reached two steps later. -/
theorem Stmt.agree_of_revises (ih : ∀ i, side.Covers L.slack j i → Contracts L side j i)
    (hn : side.Covers L.slack (j + 1) n') (h : t.Sound L) (hat : t.At fs) {s s' : Stmt}
    (hs : s.Revises L fs s') :
    Agree L side t (s.exec (j + 1)) (s'.exec n') Completion.Alike := by
  cases hs with
  | plain ha =>
    rcases hn.of_succ L.slack_pos with ⟨rfl, rfl⟩ | ⟨i, rfl, hi⟩
    · exact .inl rfl
    · exact Stmt.agree_of_alters (ih i hi) h hat ha
  | wrapped hslack _ _ ha =>
    rcases hn.of_succ_of_le hslack with ⟨rfl, hle⟩ | ⟨i, rfl, hi⟩
    · obtain rfl | rfl | rfl : n' = 0 ∨ n' = 1 ∨ n' = 2 := by omega
      · exact .inl rfl
      · exact .inl rfl
      · exact .inl rfl
    · rw [Stmt.exec_wrapped]
      exact .wrapped h hat fun u hu hat => Stmt.agree_of_alters (ih i hi) hu hat ha

/-- One more unit of fuel. -/
theorem Contracts.succ (ih : ∀ i, side.Covers L.slack j i → Contracts L side j i)
    (hn : side.Covers L.slack (j + 1) n') : Contracts L side (j + 1) n' := by
  rcases hn.of_succ L.slack_pos with ⟨rfl, rfl⟩ | ⟨i, rfl, hi⟩
  · exact .second_zero _
  · have hc := ih i hi
    constructor
    case expr => exact fun h hat hr => Expr.agree hc h hat hr
    case list => exact fun h hat hr => Expr.agreeList hc h hat hr
    case call => exact fun h hv hargs => Value.agree hc h hv hargs
    case closure => exact fun h hp hcall hargs => Closure.agree hc h hp hcall hargs
    case stmt => exact fun h hat hs => Stmt.agree_of_revises ih hn h hat hs
    case optional => exact fun h hat hr => Expr.agreeOptional hc h hat hr
    case stmts => exact fun h hat hs => Stmt.agreeList hc h hat hs
    case arms => exact fun h hat hs => Arm.agreeChoose hc h hat hs
    case loop => exact fun h hat hr hb => Stmt.agreeRepeat hc h hat hr hb
    case members =>
      exact fun h hat hhere hr hmade => Definition.agreeMembers hc h hat hhere hr hmade

/-- Evaluation keeps its contracts whenever the other run has fuel enough. -/
theorem contracts {n : Nat} (hn : side.Covers L.slack n n') : Contracts L side n n' := by
  induction n generalizing n' with
  | zero =>
    cases side with
    | first => exact .first_zero n'
    | second =>
      obtain rfl := Nat.le_zero.1 hn
      exact .second_zero 0
  | succ j ih => exact .succ (fun i hi => ih hi) hn

theorem Program.agree {n : Nat} (hn : side.Covers L.slack n n') (h : t.Sound L) (hat : t.At [])
    {p p' : Program} (hp : Stmt.RevisesList L [] p p') :
    Agree L side t (Program.run n p) (Program.run n' p') fun _ _ _ => True := by
  induction p generalizing t p' with
  | nil =>
    cases hp
    exact .pure h trivial
  | cons s p ih =>
    cases hp with
    | cons hs hp =>
      refine ((contracts hn).stmt h hat hs).bind fun u _ _ hg hu _ => ?_
      exact ih hu (hat.mono hg) hp

end Treescript
