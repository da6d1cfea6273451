import Treescript.Proofs.ReceiverScopes

/-!
# What expressions do to variables

An expression binds no name of its own: calls bind names in scopes that they make. So whatever an
expression evaluates, a variable that was there before has afterwards the value that was assigned to
it last in the course of the evaluation, and the one that it had if nothing was assigned to it. The
chronicle of the evaluation tells which.
-/

namespace Treescript

/-- The jobs that bind no name in the scope in which they begin. -/
def Job.Plain : Job → Prop
  | .expr _ | .exprs _ | .optional _ | .invocation .. | .application .. => True
  | .stmt _ | .stmts _ | .arms _ | .rounds .. | .members .. | .program _ => False

/-- The chronicle of the evaluation tells all that has happened to the variable. -/
def Evaluation.Tells (i : ScopeId) (x : String) (y : Evaluation) : Prop :=
  y.outcome.2.store.scopes.get? i x =
    (y.chronicle.assigned? i x).or (y.machine.store.scopes.get? i x)

/-- An evaluation in another scope tells all about the variables of a scope that was there. -/
theorem Evaluation.tells_of_ne {y : Evaluation} (hjob : ∀ p, y.job ≠ .program p) {i : ScopeId}
    (hi : i < y.machine.store.scopes.size) (hne : i ≠ y.machine.current) (x : String) :
    y.Tells i x := by
  have havoids : y.machine.Avoids i [] := ⟨hi, hne, fun _ h => absurd h List.not_mem_nil⟩
  have hpath := y.stepped hjob y.machine (.here ..)
  exact havoids.get?_eq y.whole_chronicle (List.append_nil _).symm hpath x

/-- What alters a store whatever scope is current leaves every scope as it is that was there. -/
theorem Store.Alters.get?_of_forall {s s' : Store} (h : ∀ current, s.Alters current s')
    {i : ScopeId} (hi : i < s.scopes.size) (x : String) :
    i < s'.scopes.size ∧ s'.scopes.get? i x = s.scopes.get? i x :=
  ⟨Nat.lt_of_lt_of_le hi (h i).grows.scopes_le,
    (h (i + 1)).get?_eq hi (Nat.ne_of_lt (Nat.lt_succ_self i)) x⟩

/-- The evaluations are the parts of a run: if they tell all about a variable, then so do their
chronicles, one after the other, about the run. -/
def Run.Tells {α : Type} (i : ScopeId) (x : String) (run : Run α) (m : Machine)
    (ys : List Evaluation) : Prop :=
  i < m.store.scopes.size →
    (∀ y ∈ ys, i < y.machine.store.scopes.size → y.Tells i x) →
    (run.run m).2.store.scopes.get? i x =
      (Chronicle.assigned? (ys.flatMap Evaluation.chronicle) i x).or (m.store.scopes.get? i x)

namespace Run.Tells

variable {α β : Type} {i : ScopeId} {x : String} {run : Run α} {m m' : Machine}
  {ys : List Evaluation}

theorem nil (h : Run.Spares run) : Run.Tells i x run m [] := fun hi _ =>
  (Store.Alters.get?_of_forall (h.store m) hi x).2

/-- A step of the machine before the first part. -/
theorem step {prim : Run β} {k : β → Run α} {b : β} (h : prim.run m = (.ok b, m'))
    (halters : ∀ current, m.store.Alters current m'.store)
    (hk : Run.Tells i x (k b) m' ys) : Run.Tells i x (prim >>= k) m ys := by
  intro hi hys
  obtain ⟨hi', hsame⟩ := Store.Alters.get?_of_forall halters hi x
  rw [run_bind_eq, h, ← hsame]
  exact hk hi' hys

theorem tail (fuel : Nat) (t : Job) : Run.Tells i x (t.run fuel) m [⟨fuel, t, m⟩] := by
  intro hi hys
  have htells := hys _ (List.mem_singleton_self _) hi
  rw [List.flatMap_singleton]
  exact htells

/-- A part, and what follows it if it ends with a result. -/
theorem part (fuel : Nat) (t : Job) {k : t.Result → Run β}
    {next : t.Result → Machine → List Evaluation}
    (hk : ∀ a m', Run.Tells i x (k a) m' (next a m')) :
    Run.Tells i x (t.run fuel >>= k) m (Evaluation.andThen ⟨fuel, t, m⟩ next) := by
  intro hi hys
  have hfirst := hys _ (Evaluation.mem_andThen.2 (.inl rfl)) hi
  have hsize := (Evaluation.continues ⟨fuel, t, m⟩).store.scopes_le
  rw [Evaluation.Tells] at hfirst
  rw [run_bind_eq]
  rcases hx : Evaluation.outcome ⟨fuel, t, m⟩ with ⟨stop | a, m'⟩
  · rw [Evaluation.andThen, hx, List.flatMap_singleton,
      show (t.run fuel).run m = (.error stop, m') from hx]
    rwa [hx] at hfirst
  · rw [hx] at hfirst hsize
    rw [Evaluation.andThen, hx] at hys
    have hrest := hk a m' (Nat.lt_of_lt_of_le hi hsize) fun y hy =>
      hys y (List.mem_cons_of_mem _ hy)
    rw [Evaluation.andThen, hx, List.flatMap_cons, Chronicle.assigned?_append, Option.or_assoc,
      ← hfirst, show (t.run fuel).run m = (.ok a, m') from hx]
    exact hrest

theorem single (fuel : Nat) (t : Job) {k : t.Result → Run β} (hk : ∀ a, Run.Spares (k a)) :
    Run.Tells i x (t.run fuel >>= k) m [⟨fuel, t, m⟩] := by
  have hpart : Run.Tells i x (t.run fuel >>= k) m
      (Evaluation.andThen ⟨fuel, t, m⟩ fun _ _ => []) := part fuel t fun a _ => nil (hk a)
  have hparts : Evaluation.andThen ⟨fuel, t, m⟩ (fun _ _ => []) = [⟨fuel, t, m⟩] := by
    rw [Evaluation.andThen]
    split <;> rfl
  rwa [hparts] at hpart

theorem located (fuel : Nat) (t : Job) (token : Token) :
    Run.Tells i x (Run.locating token (t.run fuel)) m [⟨fuel, t, m⟩] := by
  intro hi hys
  have htail := tail fuel t hi hys
  rw [Run.locating_run]
  generalize (t.run fuel).run m = end_ at htail
  obtain ⟨stop | a, m'⟩ := end_ <;> exact htail

/-- What comes after the last part only reads. -/
theorem followed (h : Run.Tells i x run m ys) {k : α → Run β} (hk : ∀ a m', (k a).Reads m') :
    Run.Tells i x (run >>= k) m ys := by
  intro hi hys
  have hrun := h hi hys
  rw [run_bind_eq]
  generalize run.run m = end_ at hrun
  obtain ⟨stop | a, m'⟩ := end_
  · exact hrun
  · rw [show ((k a).run m').2 = m' from hk a m']
    exact hrun

theorem within {scope : ScopeId} (h : Run.Tells i x run { m with current := scope } ys) :
    Run.Tells i x (Run.within scope run) m ys := h

end Run.Tells

open Run.Tells

variable {i : ScopeId} {x : String} {m : Machine}

theorem Expr.tells (fuel : Nat) (e : Expr) (he : e.assigns? = none) :
    Run.Tells i x (e.eval (fuel + 1)) m (Job.parts fuel m (.expr e)) := by
  cases e with
  | hole => exact nil (.throw _)
  | literal => exact nil (.pure _)
  | «variable» | self => exact nil (.of_reads fun _ => .lookup ..)
  | assign | count => cases he
  | unary operator right =>
    exact single fuel (.expr right) fun v => .of_reads fun _ => .operator operator _
  | binary left operator right =>
    refine part fuel (.expr left) fun l m₁ => ?_
    refine single fuel (.expr right) fun r => ?_
    exact (Run.Spares.of_reads fun _ => .store).bind fun _ =>
      .of_reads fun _ => .operator operator _
  | logical left operator right =>
    refine part fuel (.expr left) fun l m₁ => ?_
    by_cases h : Value.isTruthy l = (operator.kind == .operator .or)
    · rw [if_pos h, if_pos h]
      exact nil (.pure _)
    · rw [if_neg h, if_neg h]
      exact tail fuel (.expr right)
  | call callee paren args =>
    refine part fuel (.expr callee) fun callee m₁ => ?_
    refine part fuel (.exprs args) fun args m₂ => ?_
    refine step (Run.run_store m₂) (fun _ => .refl _) ?_
    cases harity : m₂.store.arity? callee with
    | none => exact nil (.throw _)
    | some arity =>
      dsimp only
      by_cases hlength : List.length args = arity
      · rw [if_neg (not_not_intro hlength), if_pos (congrArg some hlength.symm)]
        exact located fuel (.invocation callee args) paren
      · rw [if_pos hlength, if_neg fun heq => hlength (Option.some.inj heq).symm]
        exact nil (.throw _)
  | group _ inner => exact tail fuel (.expr inner)
  | get object name =>
    refine single fuel (.expr object) fun target => ?_
    cases target with
    | holder of id => exact .getProperty of id name
    | _ => exact .throw _
  | set object name value =>
    refine part fuel (.expr value) fun v m₁ => ?_
    refine single fuel (.expr object) fun target => ?_
    cases target with
    | holder of id => exact (Run.Spares.setProperty id name v).bind fun _ => .pure _
    | _ => exact .throw _
  | parent name => exact nil (.of_reads fun _ => .parent fuel name)
  | global name => exact nil (.of_reads fun _ => .global fuel name)

theorem Value.tells (fuel : Nat) (callee : Value) (args : List Value) :
    Run.Tells i x (callee.call (fuel + 1) args) m
      (Job.parts fuel m (.invocation callee args)) := by
  cases callee with
  | operation id =>
    refine step (Run.run_store m) (fun _ => .refl _) ?_
    simp only [Job.parts]
    cases m.store.closures[id]? with
    | none => exact nil (.throw _)
    | some closure => exact tail fuel (.application closure args)
  | native n => exact nil (.native fuel n args)
  | type t =>
    intro hi hys
    simp only [Job.parts] at hys ⊢
    rw [Value.call_type_run]
    cases hpilot : m.store.pilot? t with
    | none => rfl
    | some pilot =>
      simp only [hpilot, Option.bind_some] at hys ⊢
      cases hmethod : m.store.closures[pilot]? with
      | none => rfl
      | some method =>
        simp only [hmethod] at hys ⊢
        have hbound : ∀ current, m.store.Alters current (m.addHolder.bindSelf method _).store :=
          fun _ => .trans (.addHolder m.store)
            (.bindSelf _ method (.holder t m.store.holders.size))
        obtain ⟨hi', hsame⟩ := Store.Alters.get?_of_forall hbound hi x
        rw [← hsame]
        exact single fuel (.application (method.bound m) args) (fun _ => .pure _) hi' hys
  | none | bool | int | float | text | holder => exact nil (.throw _)

/-- A call binds its parameters in a scope of its own. -/
theorem Closure.tells (fuel : Nat) (closure : Closure) (args : List Value) :
    Run.Tells i x (closure.call (fuel + 1) args) m
      (Job.parts fuel m (.application closure args)) := by
  refine step rfl (fun _ => .enter m.store closure.scope _)
    (followed (within (tail fuel (.stmts closure.declaration.body))) fun completion m' => ?_)
  refine Run.Reads.store.bind fun s => ?_
  dsimp only
  split <;> exact .pure _

theorem Job.tells (fuel : Nat) {t : Job} (ht : t.Plain)
    (hassigns : ∀ e, t = .expr e → e.assigns? = none) :
    Run.Tells i x (t.run (fuel + 1)) m (t.parts fuel m) := by
  match t with
  | .expr e => exact e.tells fuel (hassigns e rfl)
  | .exprs [] => exact nil (.pure _)
  | .exprs (e :: es) =>
    refine part fuel (.expr e) fun v m₁ => ?_
    exact single fuel (.exprs es) fun vs => .pure _
  | .optional none => exact nil (.pure _)
  | .optional (some e) => exact tail fuel (.expr e)
  | .invocation callee args => exact callee.tells fuel args
  | .application closure args => exact closure.tells fuel args

/-- What an evaluation assigns itself comes after its parts. -/
theorem Job.tells_ended (fuel : Nat) {t : Job} (ht : t.Plain) (hi : i < m.store.scopes.size)
    (hys : ∀ y ∈ t.parts fuel m, i < y.machine.store.scopes.size → y.Tells i x) :
    (Evaluation.outcome ⟨fuel + 1, t, m⟩).2.store.scopes.get? i x =
      (Entry.assigned? i x (.ended ⟨fuel + 1, t, m⟩)).or
        ((Chronicle.assigned? ((t.parts fuel m).flatMap Evaluation.chronicle) i x).or
          (m.store.scopes.get? i x)) := by
  by_cases h : ∃ e variable_, t = .expr e ∧ e.assigns? = some variable_
  · obtain ⟨e, variable_, rfl, he⟩ := h
    obtain ⟨value, hparts, hstore⟩ := Expr.store_of_assigns fuel he m
    rw [hparts] at hys ⊢
    rw [List.flatMap_singleton]
    have hvalue := hys _ (List.mem_singleton_self _) hi
    rw [Evaluation.Tells] at hvalue
    have hsize := (Evaluation.continues ⟨fuel, .expr value, m⟩).store.scopes_le
    generalize Evaluation.outcome ⟨fuel, .expr value, m⟩ = end_ at hstore hvalue hsize
    -- only the assignment counts, so let another scope be current
    have hended : { end_.2 with current := i + 1 }.Advances (.ended ⟨fuel + 1, .expr e, m⟩)
        (Evaluation.outcome ⟨fuel + 1, .expr e, m⟩).2 := by
      refine .ended (.refl _) ?_
      rw [Evaluation.assignment?, he]
      exact hstore
    rw [hended.get?_eq (Nat.lt_of_lt_of_le hi hsize) (Nat.ne_of_lt (Nat.lt_succ_self i)) x]
    exact congrArg _ hvalue
  · have hnone : ∀ e, t = .expr e → e.assigns? = none := fun e he =>
      Option.eq_none_iff_forall_ne_some.2 fun variable_ hv => h ⟨e, variable_, he, hv⟩
    have hassigned : Evaluation.assignment? ⟨fuel + 1, t, m⟩ = none := by
      cases t with
      | expr e => simp [Evaluation.assignment?, hnone e rfl]
      | _ => rfl
    rw [Entry.assigned?, Entry.assignment?, hassigned]
    exact Job.tells fuel ht hnone hi hys

theorem Job.plain_of_mem_parts {fuel : Nat} {t : Job} (ht : t.Plain) {y : Evaluation}
    (hy : y ∈ t.parts fuel m) : y.job.Plain ∨ y.machine.current = m.store.scopes.size := by
  have henter : ∀ outer bindings, (m.enter outer bindings).current = m.store.scopes.size :=
    fun _ _ => rfl
  unfold Job.parts at hy
  split at hy <;> grind [Evaluation.mem_andThen, Job.Plain]

theorem Chronicle.assigned?_of_silent {c : Chronicle} (hc : ∀ k ∈ c, k.machine? = none)
    (i : ScopeId) (x : String) : c.assigned? i x = none :=
  List.findSome?_eq_none_iff.2 fun k hk =>
    Entry.assigned?_of_silent (hc k (List.mem_reverse.1 hk)) i x

/-- Assignments are made at the end of evaluations: last of all by the evaluation itself, and before
that by its parts. -/
theorem Evaluation.assigned?_chronicle_succ (fuel : Nat) (t : Job) (m : Machine) (i : ScopeId)
    (x : String) :
    Chronicle.assigned? (chronicle ⟨fuel + 1, t, m⟩) i x =
      (Entry.assigned? i x (.ended ⟨fuel + 1, t, m⟩)).or
        (Chronicle.assigned? ((t.parts fuel m).flatMap chronicle) i x) := by
  have hopening : t.opening.assigned? i x = none :=
    Chronicle.assigned?_of_silent (fun _ => Job.machine?_of_mem_opening) i x
  have hclosing : (t.closing fuel m).assigned? i x = none :=
    Chronicle.assigned?_of_silent (fun _ => Job.machine?_of_mem_closing) i x
  have hlast (k : Entry) : Chronicle.assigned? [k] i x = k.assigned? i x :=
    (Chronicle.assigned?_cons k [] i x).trans (Option.none_or ..)
  have hbegun : Entry.assigned? i x (.begun ⟨fuel + 1, t, m⟩) = none := rfl
  rw [chronicle_succ, Chronicle.assigned?_cons, hbegun, Option.or_none]
  simp only [Chronicle.assigned?_append, hopening, hclosing, hlast, Option.or_none, Option.none_or]

/-- The chronicle of an expression tells all that happens to the variables that are there. -/
theorem Evaluation.tells {y : Evaluation} (hjob : y.job.Plain)
    (hi : i < y.machine.store.scopes.size) (x : String) : y.Tells i x := by
  obtain ⟨fuel, t, m⟩ := y
  induction fuel generalizing t m with
  | zero =>
    have hrun : outcome ⟨0, t, m⟩ = (.error .outOfFuel, m) := by
      cases t <;> first | rfl | exact hjob.elim
    have hassigned : Entry.assigned? i x (.ended ⟨0, t, m⟩) = none := by
      cases t with
      | expr e =>
        rw [Entry.assigned?, Entry.assignment?, assignment?, show (e.eval 0).run m = _ from hrun]
        cases e.assigns? <;> rfl
      | _ => rfl
    have hchronicle : Chronicle.assigned? (chronicle ⟨0, t, m⟩) i x = none := by
      rw [show chronicle ⟨0, t, m⟩ = [.begun ⟨0, t, m⟩, .ended ⟨0, t, m⟩] from rfl,
        Chronicle.assigned?_cons, Chronicle.assigned?_cons, hassigned]
      rfl
    rw [Tells, hrun, hchronicle]
    rfl
  | succ fuel ih =>
    have hys : ∀ y ∈ t.parts fuel m, i < y.machine.store.scopes.size → y.Tells i x := by
      intro y hy hsize
      obtain ⟨rfl, hprogram⟩ := Job.of_mem_parts hy
      rcases Job.plain_of_mem_parts hjob hy with hplain | hcurrent
      · exact ih y.job y.machine hplain hsize
      · exact tells_of_ne hprogram hsize (hcurrent ▸ Nat.ne_of_lt hi) x
    rw [Tells, Job.tells_ended fuel hjob hi hys, assigned?_chronicle_succ, Option.or_assoc]

end Treescript
