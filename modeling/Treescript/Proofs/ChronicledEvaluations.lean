import Treescript.Proofs.ChronicledRuns
import Treescript.Proofs.SoundEvaluations

/-!
# Chronicled evaluations

Every evaluation that begins on a recorded store is told by its chronicle. One lemma for each
construct puts this together from what is true of the parts.
-/

namespace Treescript

/-- The chronicle knows the results of a job. -/
def Job.Known (past : Chronicle) : (t : Job) → t.Result → Prop
  | expr _, v | optional _, v | invocation .., v | application .., v => Value.MadeIn past v
  | exprs _, vs => ∀ v ∈ (vs : List Value), v.MadeIn past
  | stmt _, c | stmts _, c | rounds .., c => ∀ v, c = Completion.returned v → v.MadeIn past
  | members .., vs => ∀ x v, NameMap.get? vs x = some v → v.MadeIn past
  | arms _, _ | program _, _ => True

theorem Job.Known.madeIn {past : Chronicle} {t : Job} {a : t.Result} (h : t.Known past a)
    {v : Value} (hv : t.Yields v a) : v.MadeIn past := by
  cases t with
  | expr | optional | invocation | application => exact (hv : a = v) ▸ h
  | exprs => exact h v hv
  | stmt | stmts | rounds => exact h v hv
  | members =>
    obtain ⟨x, hx⟩ := hv
    exact h x v hx
  | arms | program => exact hv.elim

theorem Job.Known.append {past : Chronicle} {t : Job} {a : t.Result} (h : t.Known past a)
    (later : Chronicle) : t.Known (past ++ later) a := by
  cases t with
  | expr | optional | invocation | application => exact Value.MadeIn.append h later
  | exprs => exact fun v hv => (h v hv).append later
  | stmt | stmts | rounds => exact fun v hv => (h v hv).append later
  | members => exact fun x v hv => (h x v hv).append later
  | arms | program => trivial

/-- The run is told by a chronicle, and its results have a property afterwards. -/
def Run.Told {α : Type} (run : Run α) (m : Machine) (past later : Chronicle)
    (Q : Chronicle → α → Prop) : Prop :=
  Chronicle.Tells past later m.store (run.run m).2.store ∧
    ∀ a, (run.run m).1 = .ok a → Q (past ++ later) a

theorem Run.Leaves.told {α : Type} {run : Run α} {m : Machine} {past : Chronicle}
    {Q : Chronicle → α → Prop} (h : Run.Leaves run m past (Q past)) : Run.Told run m past [] Q := by
  obtain ⟨hb, hq⟩ := h
  refine ⟨.done hb, ?_⟩
  rwa [List.append_nil]

namespace Evaluation

/-- The evaluation begins on a recorded store, with values that the chronicle knows. -/
structure Begins (past : Chronicle) (x : Evaluation) : Prop where
  store : x.machine.store.Recorded past
  given : ∀ v, x.job.Given v → v.MadeIn past

def Told (x : Evaluation) : Prop :=
  ∀ past, x.Begins past →
    Run.Told (x.job.run x.fuel) x.machine past x.chronicle fun past => x.job.Known past

end Evaluation

/-- The evaluations are the parts of a run: if they are told by their chronicles, then the run is
told by these and some last entries. -/
def Run.Traced {α : Type} (run : Run α) (m : Machine) (past : Chronicle) (ys : List Evaluation)
    (last : Chronicle) (Q : Chronicle → α → Prop) : Prop :=
  (∀ y ∈ ys, y.Told) → Run.Told run m past (ys.flatMap Evaluation.chronicle ++ last) Q

namespace Run.Traced

variable {α β : Type} {run : Run α} {m m' : Machine} {past last : Chronicle}
  {ys : List Evaluation} {Q : Chronicle → α → Prop} {S : Chronicle → β → Prop}

theorem nil (h : Run.Leaves run m past (Q past)) : Run.Traced run m past [] [] Q :=
  fun _ => h.told

/-- A step of the machine before the first part. -/
theorem step {prim : Run β} {k : β → Run α} {b : β} (h : prim.run m = (.ok b, m'))
    (he : m.store.Endures m'.store) (hk : Run.Traced (k b) m' past ys last Q) :
    Run.Traced (prim >>= k) m past ys last Q := by
  intro hys
  obtain ⟨htells, hq⟩ := hk hys
  rw [Run.Told, run_bind_eq, h]
  exact ⟨.of_endures he htells, hq⟩

theorem tail (fuel : Nat) (t : Job) (h : Evaluation.Begins past ⟨fuel, t, m⟩) :
    Run.Traced (t.run fuel) m past [⟨fuel, t, m⟩] [] fun past => t.Known past := by
  intro hys
  have htold := hys _ (List.mem_singleton_self _) past h
  rwa [List.flatMap_singleton, List.append_nil]

/-- What comes after the last part is no further part. -/
theorem followed (h : Run.Traced run m past ys [] Q) {k : α → Run β}
    (hlast : ∀ stop m', run.run m = (.error stop, m') → last = [])
    (hk : ∀ a m' later, later = ys.flatMap Evaluation.chronicle → run.run m = (.ok a, m') →
      m'.store.Recorded (past ++ later) → Q (past ++ later) a →
      Run.Told (k a) m' (past ++ later) last S) :
    Run.Traced (run >>= k) m past ys last S := by
  intro hys
  obtain ⟨htells, hq⟩ := h hys
  rw [List.append_nil] at htells hq
  rw [Run.Told, run_bind_eq]
  rcases hrun : run.run m with ⟨stop | a, m'⟩
  · rw [hlast stop m' hrun, List.append_nil]
    rw [hrun] at htells
    exact ⟨htells, nofun⟩
  · rw [hrun] at htells hq
    obtain ⟨hrest, hs⟩ := hk a m' _ rfl hrun htells.recorded (hq a rfl)
    rw [← List.append_assoc]
    exact ⟨htells.append hrest, hs⟩

theorem single (fuel : Nat) (t : Job) {k : t.Result → Run β}
    (h : Evaluation.Begins past ⟨fuel, t, m⟩)
    (hk : ∀ a m' later, m'.store.Recorded (past ++ later) → t.Known (past ++ later) a →
      Run.Leaves (k a) m' (past ++ later) (S (past ++ later))) :
    Run.Traced (t.run fuel >>= k) m past [⟨fuel, t, m⟩] [] S :=
  (tail fuel t h).followed (fun _ _ _ => rfl) fun a m' _ _ _ hm' ha => (hk a m' _ hm' ha).told

/-- A part, and what follows it if it ends with a result, with the last entries of the run. -/
theorem part_then (fuel : Nat) (t : Job) {k : t.Result → Run β}
    {next : t.Result → Machine → List Evaluation} (h : Evaluation.Begins past ⟨fuel, t, m⟩)
    (hlast : ∀ stop m', (t.run fuel).run m = (.error stop, m') → last = [])
    (hk : ∀ a m' later, (t.run fuel).run m = (.ok a, m') → m'.store.Recorded (past ++ later) →
      t.Known (past ++ later) a → Run.Traced (k a) m' (past ++ later) (next a m') last S) :
    Run.Traced (t.run fuel >>= k) m past (Evaluation.andThen ⟨fuel, t, m⟩ next) last S := by
  intro hys
  obtain ⟨htells, hq⟩ := hys _ (Evaluation.mem_andThen.2 (.inl rfl)) past h
  dsimp only at htells hq
  rw [Run.Told, run_bind_eq]
  rcases hx : (t.run fuel).run m with ⟨stop | a, m'⟩
  · have hparts : Evaluation.andThen ⟨fuel, t, m⟩ next = [⟨fuel, t, m⟩] := by
      rw [Evaluation.andThen, show Evaluation.outcome ⟨fuel, t, m⟩ = (.error stop, m') from hx]
    rw [hparts, hlast stop m' hx, List.flatMap_singleton, List.append_nil]
    rw [hx] at htells
    refine ⟨htells, ?_⟩
    rintro _ ⟨⟩
  · have hparts : Evaluation.andThen ⟨fuel, t, m⟩ next = ⟨fuel, t, m⟩ :: next a m' := by
      rw [Evaluation.andThen, show Evaluation.outcome ⟨fuel, t, m⟩ = (.ok a, m') from hx]
    rw [hparts] at hys
    rw [hx] at htells hq
    obtain ⟨hrest, hs⟩ := hk a m' _ hx htells.recorded (hq a rfl) fun y hy =>
      hys y (List.mem_cons_of_mem _ hy)
    rw [hparts, List.flatMap_cons, List.append_assoc]
    refine ⟨htells.append hrest, ?_⟩
    rwa [List.append_assoc] at hs

theorem part (fuel : Nat) (t : Job) {k : t.Result → Run β}
    {next : t.Result → Machine → List Evaluation} (h : Evaluation.Begins past ⟨fuel, t, m⟩)
    (hk : ∀ a m' later, m'.store.Recorded (past ++ later) → t.Known (past ++ later) a →
      Run.Traced (k a) m' (past ++ later) (next a m') [] S) :
    Run.Traced (t.run fuel >>= k) m past (Evaluation.andThen ⟨fuel, t, m⟩ next) [] S :=
  part_then fuel t h (fun _ _ _ => rfl) fun a m' later _ hm' ha => hk a m' later hm' ha

theorem within {scope : ScopeId} (h : Run.Traced run { m with current := scope } past ys last Q) :
    Run.Traced (Run.within scope run) m past ys last Q := h

theorem located (fuel : Nat) (t : Job) (token : Token) (h : Evaluation.Begins past ⟨fuel, t, m⟩) :
    Run.Traced (Run.locating token (t.run fuel)) m past [⟨fuel, t, m⟩] []
      fun past => t.Known past := by
  intro hys
  obtain ⟨htells, hq⟩ := tail fuel t h hys
  rw [Run.Told, Run.locating_run]
  generalize (t.run fuel).run m = end_ at htells hq
  obtain ⟨stop | a, m'⟩ := end_
  · exact ⟨htells, nofun⟩
  · exact ⟨htells, hq⟩

end Run.Traced

open Run.Traced

variable {m : Machine} {past : Chronicle}

/-- An evaluation that begins without values. -/
theorem Evaluation.Begins.of_store {x : Evaluation} (hm : x.machine.store.Recorded past)
    (hx : ∀ v, ¬x.job.Given v) : x.Begins past :=
  ⟨hm, fun v hv => absurd hv (hx v)⟩

theorem Expr.traced (fuel : Nat) (hm : m.store.Recorded past) (e : Expr) :
    Run.Traced (e.eval (fuel + 1)) m past (Job.parts fuel m (.expr e))
      (Job.closing fuel m (.expr e)) Value.MadeIn := by
  have hpart : ∀ {m : Machine} {past : Chronicle} (e : Expr), m.store.Recorded past →
      Evaluation.Begins past ⟨fuel, .expr e, m⟩ := fun e hm => .of_store hm fun _ => id
  cases e with
  | hole => exact nil (.throw hm)
  | literal _ l => exact nil (.pure hm ((Value.isConstant_ofLiteral l).madeIn past))
  | «variable» | self => exact nil (.lookup hm _ _ _)
  | assign name value hops =>
    exact single fuel (.expr value) (hpart value hm) fun v m' _ hm' hv => .assign hm' name hops hv
  | unary operator right =>
    refine single fuel (.expr right) (hpart right hm) fun v m' _ hm' _ => ?_
    exact .operator hm' operator fun _ => Operator.isConstant_of_prefixed
  | binary left operator right =>
    refine part fuel (.expr left) (hpart left hm) fun l m₁ _ h₁ _ => ?_
    refine single fuel (.expr right) (hpart right h₁) fun r m₂ _ h₂ _ => .store ?_
    exact .operator h₂ operator fun _ => Operator.isConstant_of_between
  | logical left operator right =>
    refine part fuel (.expr left) (hpart left hm) fun l m₁ _ h₁ hl => ?_
    by_cases h : Value.isTruthy l = (operator.kind == .operator .or)
    · rw [if_pos h, if_pos h]
      exact nil (.pure h₁ hl)
    · rw [if_neg h, if_neg h]
      exact tail fuel (.expr right) (hpart right h₁)
  | count operator target name hops =>
    refine single fuel (.expr target) (hpart target hm) fun v m₁ _ h₁ _ => ?_
    exact (Run.Leaves.operator h₁ operator fun _ => Operator.isConstant_of_counted).bind
      fun v m₂ h₂ hv => .assign h₂ name hops hv
  | call callee paren args =>
    refine part fuel (.expr callee) (hpart callee hm) fun callee m₁ _ h₁ hcallee => ?_
    refine part fuel (.exprs args) (.of_store h₁ fun _ => id) fun args m₂ later h₂ hargs => ?_
    refine step (Run.run_store m₂) (.refl _) ?_
    cases harity : m₂.store.arity? callee with
    | none => exact nil (.throw h₂)
    | some arity =>
      dsimp only
      by_cases hlength : List.length args = arity
      · rw [if_neg (not_not_intro hlength), if_pos (congrArg some hlength.symm)]
        refine located fuel (.invocation callee args) paren ⟨h₂, ?_⟩
        rintro v (rfl | hv)
        · exact Value.MadeIn.append hcallee later
        · exact hargs v hv
      · rw [if_pos hlength, if_neg (fun heq => hlength (Option.some.inj heq).symm)]
        exact nil (.throw h₂)
  | group _ inner => exact tail fuel (.expr inner) (hpart inner hm)
  | get object name =>
    refine single fuel (.expr object) (hpart object hm) fun target m₁ _ h₁ htarget => ?_
    cases target with
    | holder of id => exact .getProperty h₁ htarget name
    | _ => exact .throw h₁
  | set object name value =>
    refine part_then fuel (.expr value) (hpart value hm) (fun stop m' hx => ?_)
      fun v m₁ later hx h₁ hv => ?_
    · exact Evaluation.whenDone_error hx
    · rw [show Job.closing fuel m (.expr (.set object name value)) = _ from
        Evaluation.whenDone_ok hx]
      refine (tail fuel (.expr object) (hpart object h₁)).followed
        (fun stop m' hy => Evaluation.whenDone_error hy) fun target m₂ later₂ _ hy h₂ htarget => ?_
      rw [Evaluation.whenDone_ok (x := ⟨fuel, .expr object, m₁⟩) hy]
      cases target with
      | holder of id =>
        have hv₂ := Value.MadeIn.append hv later₂
        have hset := Store.Becomes.setField h₂ (h₂.holder_lt htarget) name.text hv₂
        refine ⟨.change rfl (fun _ h => h) ?_ hset, ?_⟩
        · rintro _ ⟨⟩
        · rintro _ ⟨⟩
          exact hv₂.append _
      | _ => exact (Run.Leaves.throw h₂).told
  | parent name => exact nil (.parent hm fuel name)
  | global name => exact nil (.global hm fuel name)

/-- What the members of a form become. -/
theorem Definition.evaluated_of_outcome {fuel : Nat} {ds : List Definition}
    {before vs : NameMap Value} {m m' : Machine} (h : Evaluation.outcome ⟨fuel, .members ds before, m⟩ = (.ok vs, m')) :
    ∃ values, Definition.Evaluated ⟨fuel, .members ds before, m⟩ values
        (Evaluation.chronicle ⟨fuel, .members ds before, m⟩) ∧
      vs = before.insertAll ((ds.map (·.name.text)).zip values) := by
  induction ds generalizing fuel before m with
  | nil =>
    cases fuel with
    | zero => cases h
    | succ fuel =>
      cases h
      exact ⟨[], .nil fuel vs m, rfl⟩
  | cons d rest ih =>
    cases fuel with
    | zero => cases h
    | succ fuel =>
      have hrun : (Expr.evalOptional fuel d.initial >>= fun value => do
          Run.define d.name.text value
          Definition.evalMembers fuel rest (before.insert d.name.text value)).run m =
          (.ok vs, m') := h
      rw [run_bind_eq] at hrun
      rcases hd : Evaluation.outcome ⟨fuel, .optional d.initial, m⟩ with ⟨stop | v, m₁⟩
      · rw [show (Expr.evalOptional fuel d.initial).run m = (.error stop, m₁) from hd] at hrun
        cases hrun
      · rw [show (Expr.evalOptional fuel d.initial).run m = (.ok v, m₁) from hd] at hrun
        obtain ⟨values, hvalues, rfl⟩ := ih (m := m₁.define d.name.text v) hrun
        have hcons := Definition.Evaluated.cons hd hvalues
        rw [Evaluation.chronicle_succ, Job.parts, Evaluation.andThen, hd]
        exact ⟨v :: values, by simpa [Job.opening, Job.closing] using hcons, rfl⟩

theorem Value.traced (fuel : Nat) (hm : m.store.Recorded past) (callee : Value)
    (hcallee : ∀ t, callee ≠ .type t) (args : List Value) (h : ∀ v ∈ args, v.MadeIn past) :
    Run.Traced (callee.call (fuel + 1) args) m past
      (Job.parts fuel m (.invocation callee args)) [] Value.MadeIn := by
  cases callee with
  | operation id =>
    refine step (Run.run_store m) (.refl _) ?_
    simp only [Job.parts]
    cases m.store.closures[id]? with
    | none => exact nil (.throw hm)
    | some closure => exact tail fuel (.application closure args) ⟨hm, h⟩
  | native n => exact nil (.native hm fuel n args)
  | type t => exact absurd rfl (hcallee t)
  | none | bool | int | float | text | holder => exact nil (.throw hm)

/-- Calling a type makes a holder before anything else. -/
theorem TypeRef.told (fuel : Nat) (hm : m.store.Recorded past) (t : TypeRef) (args : List Value)
    (h : ∀ v ∈ args, v.MadeIn past)
    (hys : ∀ y ∈ Job.parts fuel m (.invocation (.type t) args), y.Told) :
    Run.Told ((Value.type t).call (fuel + 1) args) m past (.made t ::
      (Job.parts fuel m (.invocation (.type t) args)).flatMap Evaluation.chronicle)
      Value.MadeIn := by
  have hadded : m.store.Becomes (past ++ [.made t]) m.addHolder.store := .addHolder hm t
  have hmade : (Value.holder t m.store.holders.size).MadeIn (past ++ [.made t]) := by
    simp [Value.MadeIn, hm.size, Chronicle.types, Entry.made?]
  have htells : Chronicle.Tells past [.made t] m.store m.addHolder.store := by
    refine .change rfl (fun _ h => h) ?_ hadded
    rintro _ ⟨⟩
  simp only [Job.parts] at hys ⊢
  rw [Run.Told, Value.call_type_run]
  cases hpilot : m.store.pilot? t with
  | none =>
    refine ⟨htells, ?_⟩
    rintro _ ⟨⟩
    exact hmade
  | some pilot =>
    simp only [hpilot, Option.bind_some] at hys ⊢
    cases hmethod : m.store.closures[pilot]? with
    | none =>
      refine ⟨htells, ?_⟩
      rintro _ ⟨⟩
    | some method =>
      simp only [hmethod] at hys ⊢
      have hbound := Store.Becomes.bindSelf hadded.recorded method hmade
      have happlied : Evaluation.Begins (past ++ [.made t])
          ⟨fuel, .application (method.bound m) args, m.addHolder.bindSelf method _⟩ :=
        ⟨hbound.recorded, fun v hv => (h v hv).append _⟩
      obtain ⟨hrest, hq⟩ := single (S := Value.MadeIn) fuel (.application (method.bound m) args)
        happlied (fun _ m' later hm' _ => .pure hm' (hmade.append later)) hys
      rw [List.append_nil] at hrest hq
      refine ⟨htells.append (.of_endures hbound.endures hrest), ?_⟩
      rwa [List.append_assoc] at hq

/-- A scope for a call, and the body in it. -/
theorem Closure.traced (fuel : Nat) (hm : m.store.Recorded past) (closure : Closure)
    (args : List Value) (h : ∀ v ∈ args, v.MadeIn past) :
    Run.Traced (closure.call (fuel + 1) args) m past
      (Job.parts fuel m (.application closure args)) [] Value.MadeIn := by
  have hbindings : ∀ b ∈ (closure.declaration.params.map (·.text)).zip args, b.2.MadeIn past :=
    fun b hb => h b.2 (List.of_mem_zip hb).2
  have hentered := Store.Becomes.enterScope hm closure.scope
  have hopened : m.store.Becomes past (m.enter closure.scope _).store :=
    .trans hentered.endures (.defineAll hentered.recorded m.store.scopes.size hbindings)
  refine step rfl hopened.endures (followed (within
    (tail fuel (.stmts closure.declaration.body) (.of_store hopened.recorded fun _ => id)))
    (fun _ _ _ => rfl) fun completion m₁ _ _ _ h₁ hend => Run.Leaves.told (.store ?_))
  dsimp only
  split
  · -- a pilot hands back what `self` is bound to by now
    next self _ hself _ => exact .pure h₁ (h₁.values self (.binding _ _ hself))
  · exact .pure h₁ (hend _ rfl)
  · exact .pure h₁ trivial

theorem Stmt.traced (fuel : Nat) (hm : m.store.Recorded past) (s : Stmt)
    (hpast : ∃ before, past = before ++ [.begun ⟨fuel + 1, .stmt s, m⟩]) :
    Run.Traced (s.exec (fuel + 1)) m past (Job.parts fuel m (.stmt s))
      (Job.closing fuel m (.stmt s)) fun past c => ∀ v, c = .returned v → v.MadeIn past := by
  cases s with
  | hole => exact nil (.throw hm)
  | arm a => exact nil (.throw hm)
  | expression _ value =>
    exact single fuel (.expr value) (.of_store hm fun _ => id) fun v m' _ hm' _ => .pure hm' nofun
  | print _ value =>
    refine single fuel (.expr value) (.of_store hm fun _ => id) fun v m' _ hm' _ => .store ?_
    exact (Run.Leaves.emit hm' _).bind fun _ m₂ h₂ _ => .pure h₂ nofun
  | define d =>
    refine single fuel (.optional d.initial) (.of_store hm fun _ => id) fun v m' _ hm' hv => ?_
    exact (Run.Leaves.define hm' _ hv).bind fun _ m₂ h₂ _ => .pure h₂ nofun
  | block _ body =>
    have hopened := Store.Becomes.enterScope hm m.current
    refine step (Run.run_get m) (.refl _) (step rfl hopened.endures (within ?_))
    exact tail fuel (.stmts body) (.of_store hopened.recorded fun _ => id)
  | operation declaration =>
    refine nil (.get ((Run.Leaves.onStore (Q := fun _ => True) (.addClosure hm _) trivial).bind
      fun id m₁ h₁ _ => ?_))
    exact (Run.Leaves.define h₁ _ (v := .operation id) trivial).bind fun _ m₂ h₂ _ => .pure h₂ nofun
  | conditional _ condition branch arms otherwise =>
    refine part fuel (.expr condition) (.of_store hm fun _ => id) fun v m₁ _ h₁ _ => ?_
    by_cases hv : Value.isTruthy v = true
    · rw [if_pos hv, if_pos hv]
      exact tail fuel (.stmt branch) (.of_store h₁ fun _ => id)
    · rw [if_neg hv, if_neg hv]
      refine part fuel (.arms arms) (.of_store h₁ fun _ => id) fun chosen m₂ _ h₂ _ => ?_
      cases chosen with
      | some chosen => exact tail fuel (.stmt chosen) (.of_store h₂ fun _ => id)
      | none =>
        cases otherwise with
        | some last => exact tail fuel (.stmt last) (.of_store h₂ fun _ => id)
        | none => exact nil (.pure h₂ nofun)
  | loop _ condition body => exact tail fuel (.rounds condition body) (.of_store hm fun _ => id)
  | «return» _ value =>
    refine single fuel (.optional value) (.of_store hm fun _ => id) fun v m' _ hm' hv => ?_
    refine .pure hm' ?_
    rintro _ ⟨⟩
    exact hv
  | object _ name methods =>
    exact nil ((Run.Leaves.declareObject hm name methods).bind fun _ m₁ h₁ _ => .pure h₁ nofun)
  | «enum» _ name elements =>
    exact nil ((Run.Leaves.declareEnum hm name elements).bind fun _ m₁ h₁ _ => .pure h₁ nofun)
  | form token name members =>
    have hdefined := Store.Becomes.define hm m.current name.text (v := .none) trivial
    have hrun : (Run.define name.text .none).run m = (.ok (), m.define name.text .none) := rfl
    refine step hrun hdefined.endures ?_
    refine (tail fuel (.members members .empty) ⟨hdefined.recorded, ?_⟩).followed
      (fun stop m' hy => Evaluation.whenDone_error hy) fun vs m₁ later hlater hy h₁ hvs => ?_
    · rintro v ⟨x, hx⟩
      cases hx
    · have hclosing : Job.closing fuel m (.stmt (.form token name members)) =
          [.declared ⟨name.text, vs⟩] := Evaluation.whenDone_ok hy
      rw [hclosing]
      have hform := Store.Becomes.addForm h₁ (t := ⟨name.text, vs⟩) hvs
      have hnamed := Store.Becomes.define hform.recorded m₁.current name.text
        (v := .type (.form m₁.store.forms.size)) trivial
      refine ⟨.change rfl (fun _ h => h) ?_ (.trans hform.endures hnamed), nofun⟩
      rintro _ ⟨⟩
      obtain ⟨before, rfl⟩ := hpast
      obtain ⟨values, hvalues, rfl⟩ := Definition.evaluated_of_outcome hy
      refine ⟨before, fuel, token, name, members, m, values, later, ?_, ?_, rfl⟩
      · simp
      · rw [hlater, List.flatMap_singleton]
        exact hvalues

theorem Job.traced (fuel : Nat) (t : Job) (ht : ∀ p, t ≠ .program p) (hopening : t.opening = [])
    (hm : m.store.Recorded past) (hgiven : ∀ v, t.Given v → v.MadeIn past)
    (hpast : ∃ before, past = before ++ [.begun ⟨fuel + 1, t, m⟩]) :
    Run.Traced (t.run (fuel + 1)) m past (t.parts fuel m) (t.closing fuel m)
      fun past => t.Known past := by
  match t with
  | .expr e => exact e.traced fuel hm
  | .exprs [] => exact nil (.pure hm (List.forall_mem_nil _))
  | .exprs (e :: es) =>
    refine part fuel (.expr e) (.of_store hm fun _ h => h) fun v m₁ _ h₁ hv => ?_
    refine single fuel (.exprs es) (.of_store h₁ fun _ h => h) fun vs m₂ later h₂ hvs => .pure h₂ ?_
    exact List.forall_mem_cons.2 ⟨Value.MadeIn.append hv later, hvs⟩
  | .optional none => exact nil (.pure hm trivial)
  | .optional (some e) => exact tail fuel (.expr e) (.of_store hm fun _ h => h)
  | .invocation callee args =>
    refine callee.traced fuel hm ?_ args fun v hv => hgiven v (.inr hv)
    rintro t rfl
    cases hopening
  | .application closure args => exact closure.traced fuel hm args hgiven
  | .stmt s => exact s.traced fuel hm hpast
  | .stmts [] =>
    refine nil (.pure hm ?_)
    rintro _ ⟨⟩
  | .stmts (s :: ss) =>
    refine part fuel (.stmt s) (.of_store hm fun _ h => h) fun completion m₁ _ h₁ hend => ?_
    cases completion with
    | normal => exact tail fuel (.stmts ss) (.of_store h₁ fun _ h => h)
    | returned v => exact nil (.pure h₁ hend)
  | .arms [] => exact nil (.pure hm trivial)
  | .arms (⟨_, condition, branch⟩ :: rest) =>
    refine part fuel (.expr condition) (.of_store hm fun _ h => h) fun v m₁ _ h₁ _ => ?_
    refine single fuel (.arms rest) (.of_store h₁ fun _ h => h) fun chosen m₂ _ h₂ _ => ?_
    split <;> exact .pure h₂ trivial
  | .rounds condition body =>
    refine part fuel (.expr condition) (.of_store hm fun _ h => h) fun v m₁ _ h₁ _ => ?_
    by_cases hv : Value.isTruthy v = true
    · rw [if_pos hv, if_pos hv]
      refine part fuel (.stmt body) (.of_store h₁ fun _ h => h) fun completion m₂ _ h₂ hend => ?_
      cases completion with
      | normal => exact tail fuel (.rounds condition body) (.of_store h₂ fun _ h => h)
      | returned v => exact nil (.pure h₂ hend)
    · rw [if_neg hv, if_neg hv]
      refine nil (.pure h₁ ?_)
      rintro _ ⟨⟩
  | .members [] before => exact nil (.pure hm fun x v hx => hgiven v ⟨x, hx⟩)
  | .members (⟨_, name, initial⟩ :: rest) before =>
    refine part fuel (.optional initial) (.of_store hm fun _ h => h) fun v m₁ later h₁ hv => ?_
    have hdefined := Store.Becomes.define h₁ m₁.current name.text hv
    refine step rfl hdefined.endures (tail fuel (.members rest (before.insert name.text v))
      ⟨hdefined.recorded, ?_⟩)
    rintro w ⟨x, hx⟩
    rw [NameMap.get?_insert] at hx
    split at hx
    · cases hx
      exact hv
    · exact (hgiven w ⟨x, hx⟩).append later
  | .program p => exact absurd rfl (ht p)

/-- What lies between the first and the last entry of a job. -/
theorem Job.told (fuel : Nat) (t : Job) (ht : ∀ p, t ≠ .program p) (hm : m.store.Recorded past)
    (hgiven : ∀ v, t.Given v → v.MadeIn past)
    (hpast : ∃ before, past = before ++ [.begun ⟨fuel + 1, t, m⟩])
    (hys : ∀ y ∈ t.parts fuel m, y.Told) :
    Run.Told (t.run (fuel + 1)) m past (t.opening ++
      (t.parts fuel m).flatMap Evaluation.chronicle ++ t.closing fuel m)
      fun past => t.Known past := by
  rcases t.opening_eq_nil_or with hopening | ⟨u, args, rfl⟩
  · rw [hopening]
    exact t.traced fuel ht hopening hm hgiven hpast hys
  · have htold := u.told fuel hm args (fun v hv => hgiven v (.inr hv)) hys
    rwa [← List.append_nil (Entry.made u :: _)] at htold

namespace Evaluation

/-- Around what a job does, its first and its last entry fit as well. -/
theorem told_of_job {fuel : Nat} {t : Job} {later : Chronicle} (hx : Begins past ⟨fuel, t, m⟩)
    (h : Run.Told (t.run fuel) m (past ++ [.begun ⟨fuel, t, m⟩]) later fun past => t.Known past) :
    Run.Told (t.run fuel) m past (.begun ⟨fuel, t, m⟩ :: (later ++ [.ended ⟨fuel, t, m⟩]))
      fun past => t.Known past := by
  obtain ⟨htells, hknown⟩ := h
  have hbegun : Entry.Fits past (.begun ⟨fuel, t, m⟩) := by
    refine ⟨?_, hx.given, nofun⟩
    rintro _ ⟨⟩
    exact hx.store
  have hended : Entry.Fits (past ++ [.begun ⟨fuel, t, m⟩] ++ later) (.ended ⟨fuel, t, m⟩) := by
    refine ⟨?_, ?_, nofun⟩
    · rintro _ ⟨⟩
      exact htells.recorded
    · rintro v ⟨a, ha, hv⟩
      exact (hknown a ha).madeIn hv
  have hlast := htells.recorded.concat (k := .ended ⟨fuel, t, m⟩) rfl
  have htail : Chronicle.Tells (past ++ [.begun ⟨fuel, t, m⟩]) (later ++ [.ended ⟨fuel, t, m⟩])
      m.store ((t.run fuel).run m).2.store := by
    refine htells.append (.entry hended (.refl _) ?_ (.done (.refl hlast)))
    rintro _ ⟨⟩
    rfl
  refine ⟨.entry hbegun (.refl _) ?_ htail, fun a ha => ?_⟩
  · rintro _ ⟨⟩
    rfl
  · rw [List.append_cons, ← List.append_assoc]
    exact (hknown a ha).append _

theorem told (x : Evaluation) (h : ∀ p, x.job ≠ .program p) : x.Told := by
  obtain ⟨fuel, t, m⟩ := x
  induction fuel generalizing t m with
  | zero =>
    intro past hx
    have hrun : (t.run 0).run m = (.error .outOfFuel, m) := by
      cases t <;> first | rfl | exact absurd rfl (h _)
    have hstopped : Run.Told (t.run 0) m (past ++ [.begun ⟨0, t, m⟩]) []
        fun past => t.Known past := by
      rw [Run.Told, hrun]
      exact ⟨.done (.refl (hx.store.concat rfl)), nofun⟩
    exact told_of_job hx hstopped
  | succ fuel ih =>
    intro past hx
    rw [chronicle_succ]
    refine told_of_job hx (t.told fuel h (hx.store.concat rfl)
      (fun v hv => (hx.given v hv).append _) ⟨past, rfl⟩ fun y hy => ?_)
    obtain ⟨rfl, hprogram⟩ := Job.of_mem_parts hy
    exact ih y.job y.machine hprogram

end Evaluation

end Treescript
