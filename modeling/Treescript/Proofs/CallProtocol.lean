import Treescript.Proofs.Alterations
import Treescript.Proofs.RaisedFailures
import Treescript.Proofs.SequencedEvaluations

/-!
# The call protocol

A call evaluates the callee and then its arguments, and only then looks at what the callee is. If it
takes as many arguments as there are, it is invoked with their values; an operation finds them bound
in a scope of its own. If not, the call is refused, with the values in the failure and nothing else
done. A run keeps arguments in the failure that it ends with exactly if it ends with a refused call.
-/

namespace Treescript

namespace Scopes

variable {α : Type} (ss : Scopes α) {id : ScopeId} {x : String}

theorem get?_defineAll_of_not_mem {entries : List (String × α)} (h : ∀ e ∈ entries, e.1 ≠ x) :
    (ss.defineAll id entries).get? id x = ss.get? id x := by
  induction entries generalizing ss with
  | nil => rfl
  | cons e rest ih =>
    have hrest := ih (ss.define id e.1 e.2) fun e he => h e (List.mem_cons_of_mem _ he)
    have hne : x ≠ e.1 := (h e List.mem_cons_self).symm
    rw [defineAll, List.foldl_cons]
    exact hrest.trans (by simp [get?_define, hne])

/-- The last entry for a name counts. -/
theorem get?_defineAll_of_last (hid : id < ss.size) {entries : List (String × α)} {i : Nat} {v : α}
    (h : entries[i]? = some (x, v)) (hlast : ∀ j > i, ∀ e, entries[j]? = some e → e.1 ≠ x) :
    (ss.defineAll id entries).get? id x = some v := by
  induction entries generalizing ss i with
  | nil => simp at h
  | cons e rest ih =>
    rw [defineAll, List.foldl_cons]
    cases i with
    | zero =>
      obtain rfl := Option.some.inj h
      have hrest : ∀ e ∈ rest, e.1 ≠ x := by
        intro e he
        obtain ⟨j, hj⟩ := List.mem_iff_getElem?.1 he
        exact hlast (j + 1) (by omega) e hj
      exact (get?_defineAll_of_not_mem _ hrest).trans (get?_define_self ss hid x v)
    | succ i =>
      apply ih _ (by rwa [size_define]) h
      intro j hj
      exact hlast (j + 1) (by omega)

theorem size_defineAll (entries : List (String × α)) :
    (ss.defineAll id entries).size = ss.size := by
  induction entries generalizing ss with
  | nil => rfl
  | cons e rest ih => exact (ih _).trans (size_define ..)

theorem outer?_defineAll (entries : List (String × α)) (i : ScopeId) :
    (ss.defineAll id entries).outer? i = ss.outer? i := by
  induction entries generalizing ss with
  | nil => rfl
  | cons e rest ih => exact (ih _).trans (outer?_define ..)

theorem get?_size : ss.get? ss.size x = none := by
  simp [get?, size]

end Scopes

/-- The second machine is in a new scope inside that of an operation. What is bound there are the
parameters of the operation, each to the value at its position. If two of them have one name, which
resolution reports, it is the later one that counts. -/
structure Machine.Receives (m : Machine) (closure : Closure) (values : List Value)
    (m' : Machine) : Prop where
  current : m'.current = m.store.scopes.size
  size : m'.store.scopes.size = m.store.scopes.size + 1
  outer : closure.scope < m.store.scopes.size →
    m'.store.scopes.outer? m'.current = some closure.scope
  length : closure.declaration.params.length = values.length
  bound : ∀ (i : Nat) (param : Token) (v : Value), closure.declaration.params[i]? = some param →
    values[i]? = some v →
    (∀ j > i, ∀ later, closure.declaration.params[j]? = some later → later.text ≠ param.text) →
    m'.store.scopes.get? m'.current param.text = some v
  unbound : ∀ x, (∀ param ∈ closure.declaration.params, param.text ≠ x) →
    m'.store.scopes.get? m'.current x = none
  others : ∀ i ≠ m'.current, ∀ x, m'.store.scopes.get? i x = m.store.scopes.get? i x

theorem Machine.receives_enter (m : Machine) {closure : Closure} {values : List Value}
    (h : closure.declaration.params.length = values.length) :
    m.Receives closure values
      (m.enter closure.scope ((closure.declaration.params.map (·.text)).zip values)) where
  current := rfl
  size := (Scopes.size_defineAll ..).trans (Scopes.size_push ..)
  outer := fun hscope => (Scopes.outer?_defineAll ..).trans (Scopes.outer?_push_size _ hscope)
  length := h
  bound := by
    intro i param v hparam hv hlater
    have hnew : m.store.scopes.size < (m.store.scopes.push (some closure.scope)).size := by simp
    apply Scopes.get?_defineAll_of_last _ hnew
    · exact List.getElem?_zip_eq_some.2 ⟨by simp [hparam], hv⟩
    · intro j hj e he
      obtain ⟨hname, -⟩ := List.getElem?_zip_eq_some.1 he
      rw [List.getElem?_map, Option.map_eq_some_iff] at hname
      obtain ⟨later, hlate, htext⟩ := hname
      rw [← htext]
      exact hlater j hj later hlate
  unbound := by
    intro x hx
    have hentries : ∀ e ∈ (closure.declaration.params.map (·.text)).zip values, e.1 ≠ x := by
      intro e he
      obtain ⟨param, hparam, htext⟩ := List.mem_map.1 (List.of_mem_zip he).1
      rw [← htext]
      exact hx param hparam
    refine (Scopes.get?_defineAll_of_not_mem _ hentries).trans ?_
    exact (Scopes.get?_push ..).trans (Scopes.get?_size _)
  others := by
    intro i hi x
    exact (Scopes.get?_defineAll_of_ne _ hi _ x).trans (Scopes.get?_push ..)

/-- What invoking a value applies to the arguments, and on which machine: an operation as it is, the
pilot of a type after it has been bound to a new holder. -/
inductive Value.Applies (m : Machine) : Value → Closure → Machine → Prop
  | operation {id : Nat} {closure : Closure} (h : m.store.closures[id]? = some closure) :
    Applies m (.operation id) closure m
  | pilot {t : TypeRef} {id : Nat} {method : Closure} (hid : m.store.pilot? t = some id)
    (h : m.store.closures[id]? = some method) :
    Applies m (.type t) (method.bound m)
      (m.addHolder.bindSelf method (.holder t m.store.holders.size))

/-- Why a call with so many arguments is refused. -/
def Store.refusal (s : Store) (callee : Value) (given : Nat) : Cause :=
  match s.arity? callee with
  | none => .notCallable callee.kind
  | some arity => .arity arity given

theorem Store.isSome_arity?_iff (s : Store) (v : Value) :
    (s.arity? v).isSome ↔
      v.kind ∈ [Kind.operation, .native, .objectType, .enumType, .formType] := by
  cases v with
  | type t => cases t <;> simp [Store.arity?, Value.kind, TypeRef.kind]
  | holder t id => cases t <;> simp [Store.arity?, Value.kind, TypeRef.holderKind]
  | _ => simp [Store.arity?, Value.kind]

/-- The arity of a value is the number of parameters of what is applied when it is invoked. -/
theorem Value.Applies.arity? {m s : Machine} {f : Value} {closure : Closure}
    (h : f.Applies m closure s) : m.store.arity? f = some closure.declaration.params.length := by
  cases h with
  | operation h => simp [Store.arity?, Store.closureArity, h, Closure.arity]
  | pilot hid h => simp [Store.arity?, hid, Store.closureArity, h, Closure.arity, Closure.bound]

theorem Value.Applies.course {m s : Machine} {f : Value} {closure : Closure}
    (h : f.Applies m closure s) (values : List Value) :
    (Job.invocation f values).Course m [(.application closure values, s)] := by
  refine .of_succ 0 fun fuel _ => ?_
  have hparts : Evaluation.parts ⟨fuel + 1, .invocation f values, m⟩ =
      [⟨fuel, .application closure values, s⟩] := by
    cases h with
    | operation h => simp [Evaluation.parts, Job.parts, h]
    | pilot hid h => simp [Evaluation.parts, Job.parts, hid, h]
  rw [Evaluation.course, hparts, Evaluation.steps_cons_single rfl]
  rfl

theorem Closure.application_course (closure : Closure) (values : List Value) (m : Machine) :
    (Job.application closure values).Course m [(.stmts closure.declaration.body,
      m.enter closure.scope ((closure.declaration.params.map (·.text)).zip values))] :=
  .of_succ 0 fun _ _ => Evaluation.steps_cons_single rfl []

section

open Run.Settles (succ_iff bind_iff bind_error of_run)

variable {callee : Expr} {paren : Token} {m m₁ m₂ m' : Machine} {f : Value} {rs : List Evaluated}
  {r : Except Stop Value}

/-- What is left of a call when the callee and the arguments have been evaluated. -/
def Value.calledAt (fuel : Nat) (paren : Token) (f : Value) (values : List Value) : Run Value := do
  match (← Run.store).arity? f with
  | .none => Run.refuse paren (.notCallable f.kind) values
  | some arity =>
    if values.length ≠ arity then Run.refuse paren (.arity arity values.length) values
    else Run.locating paren (f.call fuel values)

theorem Expr.call_ends_iff (hf : (Job.expr callee).Ends m (.ok f) m₁) (h : m₁.Evaluates rs m₂) :
    (Job.expr (.call callee paren (rs.map Evaluated.expr))).Ends m r m' ↔
      Run.Settles (fun fuel => f.calledAt fuel paren (rs.map Evaluated.value)) m₂ r m' := by
  have hcall : (Job.expr (.call callee paren (rs.map Evaluated.expr))).Ends m r m' ↔
      Run.Settles (fun fuel => (Job.expr callee).run fuel >>= fun f =>
        (Job.exprs (rs.map Evaluated.expr)).run fuel >>= fun values =>
          Value.calledAt fuel paren f values) m r m' := by
    rw [Job.Ends, ← succ_iff]
    rfl
  rw [hcall, bind_iff hf, bind_iff (Expr.list_ends_of_evaluates h)]

theorem Job.located_iff {t : Job} {token : Token} {r : Except Stop t.Result} :
    Run.Settles (fun fuel => Run.locating token (t.run fuel)) m r m' ↔
      ∃ r₀, t.Ends m r₀ m' ∧ r = r₀.mapError (Stop.locatedAt token) := by
  constructor
  · rintro ⟨hr, enough, hrun⟩
    have hlocated := hrun enough (Nat.le_refl _)
    rw [Run.locating_run] at hlocated
    rcases heq : (t.run enough).run m with ⟨stop | a, s⟩
    · rw [heq] at hlocated
      obtain ⟨rfl, rfl⟩ := Prod.mk.inj hlocated
      refine ⟨.error stop, .of_outcome heq ?_, rfl⟩
      intro hstop
      rw [Except.error.inj hstop] at hr
      exact hr rfl
    · rw [heq] at hlocated
      obtain ⟨rfl, rfl⟩ := Prod.mk.inj hlocated
      exact ⟨.ok a, .of_outcome heq nofun, rfl⟩
  · rintro ⟨r₀, ⟨hr, enough, hrun⟩, rfl⟩
    refine ⟨?_, enough, fun fuel hfuel => ?_⟩
    · rcases r₀ with (f | _ | _) | a
      · exact nofun
      · exact absurd rfl hr
      · exact nofun
      · exact nofun
    · rw [Run.locating_run, hrun fuel hfuel]
      cases r₀ <;> rfl

theorem Expr.call_ends_of_taken (hf : (Job.expr callee).Ends m (.ok f) m₁)
    (h : m₁.Evaluates rs m₂) (harity : m₂.store.arity? f = some rs.length) :
    (Job.expr (.call callee paren (rs.map Evaluated.expr))).Ends m r m' ↔
      ∃ r₀, (Job.invocation f (rs.map Evaluated.value)).Ends m₂ r₀ m' ∧
        r = r₀.mapError (Stop.locatedAt paren) := by
  have hstore : Run.Settles (fun _ => Run.store) m₂ (.ok m₂.store) m₂ := of_run rfl nofun
  rw [Expr.call_ends_iff hf h, ← Job.located_iff]
  refine (bind_iff hstore).trans ?_
  simp only [harity, List.length_map, ne_eq, not_true_eq_false, if_false]
  rfl

theorem Expr.call_ends_of_refused (hf : (Job.expr callee).Ends m (.ok f) m₁)
    (h : m₁.Evaluates rs m₂) (harity : m₂.store.arity? f ≠ some rs.length) :
    (Job.expr (.call callee paren (rs.map Evaluated.expr))).Ends m (.error (.failure
      ⟨paren, m₂.store.refusal f rs.length, some (rs.map Evaluated.value)⟩)) m₂ := by
  have hstore : Run.Settles (fun _ => Run.store) m₂ (.ok m₂.store) m₂ := of_run rfl nofun
  refine (Expr.call_ends_iff hf h).2 ((bind_iff hstore).2 ?_)
  rw [Store.refusal]
  cases hcount : m₂.store.arity? f with
  | none => exact of_run rfl nofun
  | some n =>
    have hne : rs.length ≠ n := by
      rintro rfl
      exact harity hcount
    simp only [List.length_map, ne_eq, hne, not_false_eq_true, if_true]
    exact of_run rfl nofun

/-- A call does nothing else between the arguments and the invocation. -/
theorem Expr.call_course (hf : (Job.expr callee).Ends m (.ok f) m₁) (h : m₁.Evaluates rs m₂) :
    (Job.expr (.call callee paren (rs.map Evaluated.expr))).Course m
      ((.expr callee, m) :: rs.map Evaluated.step ++
        if m₂.store.arity? f = some rs.length then [(.invocation f (rs.map Evaluated.value), m₂)]
        else []) := by
  have hsequence : (Job.exprs (rs.map Evaluated.expr)).sequence? = some (rs.map Evaluated.expr) :=
    rfl
  obtain ⟨k, hk⟩ := hf.exists_enough
  obtain ⟨j, hj⟩ := (Expr.list_ends_of_evaluates h).exists_enough
  obtain ⟨n, hn⟩ := Job.singles_of_all_evaluated h hsequence
  refine .of_succ (max k (max j n)) fun fuel hfuel => ?_
  have hparts : Evaluation.parts
      ⟨fuel + 1, .expr (.call callee paren (rs.map Evaluated.expr)), m⟩ = _ :=
    Evaluation.andThen_of_ok (hk fuel (by omega)) _
  rw [Evaluation.course, hparts, Evaluation.steps_cons_single rfl,
    Evaluation.andThen_of_ok (hj fuel (by omega)), Evaluation.steps_cons, hn fuel (by omega),
    List.length_map]
  by_cases harity : m₂.store.arity? f = some rs.length
  · rw [if_pos harity, if_pos harity, Evaluation.steps_cons_single rfl]
    rfl
  · rw [if_neg harity, if_neg harity]
    rfl

end

theorem Failure.args_locatedAll (f : Failure) (tokens : List Token) :
    (f.locatedAll tokens).args = f.args := by
  induction tokens generalizing f with
  | nil => rfl
  | cons token rest ih =>
    refine (ih (f.locatedAt token)).trans ?_
    rw [Failure.locatedAt]
    split <;> rfl

namespace Evaluation

/-- A call whose callee and arguments have values, and whose callee does not take so many. -/
inductive Refuses : Evaluation → List Value → Machine → Prop
  | call (fuel : Nat) {callee : Expr} (paren : Token) {m m₁ m₂ : Machine} {f : Value}
    {rs : List Evaluated} (hf : (Job.expr callee).Ends m (.ok f) m₁) (hrs : m₁.Evaluates rs m₂)
    (harity : m₂.store.arity? f ≠ some rs.length) :
    Refuses ⟨fuel, .expr (.call callee paren (rs.map Evaluated.expr)), m⟩
      (rs.map Evaluated.value) m₂

variable {x : Evaluation} {g : Failure} {values : List Value} {s : Machine}

/-- If a refused call raises a failure, it is the refusal. -/
theorem Refuses.outcome (h : x.Refuses values s) (hx : x.Raises g) :
    g.args = some values ∧ x.outcome.2 = s := by
  have hfails : Job.Ends _ x.machine (.error (.failure g)) _ :=
    .of_outcome (Prod.ext hx.1 rfl) nofun
  cases h with
  | call fuel paren hf hrs harity =>
    have hends := @Expr.call_ends_of_refused _ paren _ _ _ _ _ hf hrs harity
    obtain ⟨hfailure, hs⟩ := Run.Settles.unique hends hfails
    cases hfailure
    exact ⟨rfl, hs⟩

/-- The callee and the arguments of a call that raises a failure have values, and so would the
invocation if there was one. -/
theorem Raises.call_evaluated {fuel : Nat} {callee : Expr} {paren : Token} {args : List Expr}
    {m : Machine} (hx : Raises ⟨fuel + 1, .expr (.call callee paren args), m⟩ g) :
    ∃ f m₁ rs m₂, (Job.expr callee).Ends m (.ok f) m₁ ∧ m₁.Evaluates rs m₂ ∧
      args = rs.map Evaluated.expr ∧ (m₂.store.arity? f = some rs.length →
        ∃ v s, (Job.invocation f (rs.map Evaluated.value)).Ends m₂ (.ok v) s) := by
  rcases hcallee : Evaluation.outcome ⟨fuel, .expr callee, m⟩ with ⟨stop | f, m₁⟩
  · exact absurd (congrArg Prod.fst hcallee) (hx.ne_error List.mem_cons_self stop)
  have hparts : Evaluation.parts ⟨fuel + 1, .expr (.call callee paren args), m⟩ = _ :=
    Evaluation.andThen_of_ok hcallee _
  rcases hargs : Evaluation.outcome ⟨fuel, .exprs args, m₁⟩ with ⟨stop | vs, m₂⟩
  · refine absurd (congrArg Prod.fst hargs) (hx.ne_error ?_ stop)
    rw [hparts]
    exact List.mem_cons_of_mem _ List.mem_cons_self
  rw [Evaluation.andThen_of_ok hargs] at hparts
  have hvs : (Job.exprs args).Ends m₁ (.ok vs) m₂ := .of_outcome hargs nofun
  rcases Expr.list_ends_cases hvs with ⟨rs, hrs, rfl, hvalues⟩ | ⟨_, _, _, _, _, _, _, _, hstop⟩
  · obtain rfl := Except.ok.inj hvalues
    refine ⟨f, m₁, rs, m₂, .of_outcome hcallee nofun, hrs, rfl, fun harity => ?_⟩
    rw [List.length_map, if_pos harity] at hparts
    rcases hinvoked : Evaluation.outcome ⟨fuel, .invocation f _, m₂⟩ with ⟨stop | v, s⟩
    · refine absurd (congrArg Prod.fst hinvoked) (hx.ne_error ?_ stop)
      rw [hparts]
      exact List.mem_cons_of_mem _ (List.mem_cons_of_mem _ List.mem_cons_self)
    · exact ⟨v, s, .of_outcome hinvoked nofun⟩
  · cases hstop

/-- A failure that keeps arguments is raised by a refused call. -/
theorem Raises.refuses (hx : x.Raises g) (hg : g.args = some values) :
    x.Refuses values x.outcome.2 := by
  have hcall : ∃ callee paren args, x.job = .expr (.call callee paren args) := by
    rcases hx.mayRaise.2 with hnone | hcall
    · cases hg.symm.trans hnone
    · exact hcall
  obtain ⟨callee, paren, args, hjob⟩ := hcall
  obtain ⟨fuel, t, m⟩ := x
  obtain rfl : t = .expr (.call callee paren args) := hjob
  cases fuel with
  | zero => cases hx.1
  | succ fuel =>
    obtain ⟨f, m₁, rs, m₂, hf, hrs, rfl, hinvoked⟩ := hx.call_evaluated
    have harity : m₂.store.arity? f ≠ some rs.length := by
      intro harity
      obtain ⟨v, s, hv⟩ := hinvoked harity
      have hends : (Job.expr (.call callee paren (rs.map Evaluated.expr))).Ends m (.ok v) s :=
        (Expr.call_ends_of_taken hf hrs harity).2 ⟨.ok v, hv, rfl⟩
      have hfails : Job.Ends _ m (.error (.failure g)) _ := .of_outcome (Prod.ext hx.1 rfl) nofun
      cases (Run.Settles.unique hends hfails).1
    have hrefused : Refuses ⟨fuel + 1, _, m⟩ _ m₂ := .call (fuel + 1) paren hf hrs harity
    obtain ⟨hargs, hs⟩ := hrefused.outcome hx
    obtain rfl := Option.some.inj (hg.symm.trans hargs)
    rw [hs]
    exact hrefused

end Evaluation

/-- A run ends with arguments exactly if the failure that it ends with is a refused call. -/
theorem Machine.aborted_with_args_iff {fuel : Nat} {p : Program} {m : Machine}
    {texts : List String} :
    (∃ a, (m.interpret fuel p).1 = .aborted a ∧ a.args = some texts) ↔
      ∃ calls y g values s, Evaluation.Leads ⟨fuel, .program p, m⟩ calls y ∧ y.Raises g ∧
        y.Refuses values s ∧ texts = values.map s.store.display := by
  constructor
  · rintro ⟨a, ha, htexts⟩
    obtain ⟨f, hf⟩ := Machine.aborted_iff.1 ⟨a, ha⟩
    obtain ⟨calls, y, g, hlead, hraise⟩ := Evaluation.exists_raises _ hf
    obtain ⟨record, hrun⟩ := Machine.interpret_of_failure (hlead.fails hraise)
    rw [hrun] at ha
    cases ha
    rw [Failure.abort, Failure.args_locatedAll, Option.map_eq_some_iff] at htexts
    obtain ⟨values, hvalues, htexts⟩ := htexts
    exact ⟨calls, y, g, values, _, hlead, hraise, hraise.refuses hvalues, htexts.symm⟩
  · rintro ⟨calls, y, g, values, s, hlead, hraise, hrefused, rfl⟩
    obtain ⟨record, hrun⟩ := Machine.interpret_of_failure (hlead.fails hraise)
    obtain ⟨hargs, hs⟩ := hrefused.outcome hraise
    refine ⟨_, congrArg Prod.fst hrun, ?_⟩
    rw [Failure.abort, Failure.args_locatedAll, hargs, hs]
    rfl

/-- When the callee and the arguments of a call have been evaluated, the callee is invoked with the
values if it takes as many, and an operation or a pilot finds each of them in a new scope under the
parameter at its position. If not, the call fails at its parenthesis with the values, on the machine
that the last argument has left. A run ends with the displayed arguments of a call exactly if the
one failure raised in it is that of a refused call. -/
theorem Expr.call_protocol :
    (∀ (callee : Expr) (paren : Token) (m : Machine) (f : Value) (m₁ : Machine)
      (rs : List Evaluated) (m₂ : Machine),
      (Job.expr callee).Ends m (.ok f) m₁ → m₁.Evaluates rs m₂ →
      let call := Job.expr (.call callee paren (rs.map Evaluated.expr))
      let values := rs.map Evaluated.value
      ((m₂.store.arity? f).isSome ↔
        f.kind ∈ [Kind.operation, .native, .objectType, .enumType, .formType]) ∧
      (m₂.store.arity? f = some rs.length →
        call.Course m ((.expr callee, m) :: rs.map Evaluated.step ++ [(.invocation f values, m₂)]) ∧
        (∀ r m', call.Ends m r m' ↔ ∃ r₀, (Job.invocation f values).Ends m₂ r₀ m' ∧
          r = r₀.mapError (Stop.locatedAt paren)) ∧
        ∀ closure s, f.Applies m₂ closure s →
          (Job.invocation f values).Course m₂ [(.application closure values, s)] ∧
          ∃ s', (Job.application closure values).Course s [(.stmts closure.declaration.body, s')] ∧
            s.Receives closure values s') ∧
      (m₂.store.arity? f ≠ some rs.length →
        call.Course m ((.expr callee, m) :: rs.map Evaluated.step) ∧
        call.Ends m (.error (.failure ⟨paren, m₂.store.refusal f rs.length, some values⟩)) m₂)) ∧
    ∀ (fuel : Nat) (p : Program) (m : Machine) (texts : List String),
      (∃ a, (m.interpret fuel p).1 = .aborted a ∧ a.args = some texts) ↔
        ∃ calls y g values s, Evaluation.Leads ⟨fuel, .program p, m⟩ calls y ∧ y.Raises g ∧
          (∀ calls' z g', Evaluation.Leads ⟨fuel, .program p, m⟩ calls' z → z.Raises g' → z = y) ∧
          y.Refuses values s ∧ texts = values.map s.store.display := by
  refine ⟨fun callee paren m f m₁ rs m₂ hf hrs => ?_, fun fuel p m texts => ?_⟩
  · have hcourse := @Expr.call_course callee paren _ _ _ _ _ hf hrs
    refine ⟨m₂.store.isSome_arity?_iff f, fun harity => ?_, fun harity => ?_⟩
    · rw [if_pos harity] at hcourse
      refine ⟨hcourse, fun r m' => Expr.call_ends_of_taken hf hrs harity, fun closure s hs => ?_⟩
      refine ⟨hs.course _, _, closure.application_course _ s, s.receives_enter ?_⟩
      rw [hs.arity?] at harity
      rw [Option.some.inj harity, List.length_map]
    · rw [if_neg harity, List.append_nil] at hcourse
      exact ⟨hcourse, Expr.call_ends_of_refused hf hrs harity⟩
  · rw [Machine.aborted_with_args_iff]
    constructor
    · rintro ⟨calls, y, g, values, s, hlead, hraise, hrefused, htexts⟩
      refine ⟨calls, y, g, values, s, hlead, hraise, fun calls' z g' hz hg => ?_, hrefused, htexts⟩
      exact hlead.raises_unique hraise hz hg
    · rintro ⟨calls, y, g, values, s, hlead, hraise, -, hrefused, htexts⟩
      exact ⟨calls, y, g, values, s, hlead, hraise, hrefused, htexts⟩

/-- An operation with two parameters under the name `f`. -/
def pairMachine : Machine :=
  let m := Machine.start ⟨fun _ => 0, 0⟩ [("f", .operation 0)]
  let params : List Token := [⟨.identifier, "a", 1, .null⟩, ⟨.identifier, "b", 1, .null⟩]
  { m with store := (m.store.addClosure
      ⟨⟨.blank, ⟨.identifier, "f", 1, .null⟩, params, []⟩, m.globals, false⟩).1 }

/-- Called with two values, it has them as `a` and `b`; called with none, it is refused. -/
theorem pairMachine_calls :
    (∃ closure s, closure.declaration.name.text = "f" ∧ s.current = 1 ∧
      (Job.application closure [.int 1, .int 2]).Course pairMachine [(.stmts [], s)] ∧
      s.store.scopes.get? s.current "a" = some (.int 1) ∧
      s.store.scopes.get? s.current "b" = some (.int 2)) ∧
    ∃ a, (pairMachine.interpret 9 [.expression .blank
        (.call (.variable ⟨.identifier, "f", 2, .null⟩ none) ⟨.mark .close, ")", 2, .null⟩ [])]).1 =
      .aborted a ∧ a.args = some [] := by
  let callee : Expr := .variable ⟨.identifier, "f", 2, .null⟩ none
  let paren : Token := ⟨.mark .close, ")", 2, .null⟩
  have hf : (Job.expr callee).Ends pairMachine (.ok (.operation 0)) pairMachine :=
    @Job.Ends.of_outcome _ _ _ _ 1 rfl nofun
  constructor
  · let literal (n : Int64) : Evaluated := ⟨.literal .blank (.int n), pairMachine, .int n,
      pairMachine, @Job.Ends.of_outcome _ _ _ _ 1 rfl nofun⟩
    have hrs : pairMachine.Evaluates [literal 1, literal 2] pairMachine :=
      .cons (literal 1) (.cons (literal 2) (.nil _))
    obtain ⟨-, -, happlies⟩ := (Expr.call_protocol.1 callee paren _ _ _ _ _ hf hrs).2.1 rfl
    obtain ⟨-, s, hcourse, hs⟩ := happlies _ _ (.operation rfl)
    have ha : s.store.scopes.get? s.current "a" = some (.int 1) := by
      apply hs.bound 0 _ _ rfl rfl
      rintro (_ | _ | j) hj later hlater
      · omega
      · cases hlater
        decide
      · cases hlater
    have hb : s.store.scopes.get? s.current "b" = some (.int 2) := by
      apply hs.bound 1 _ _ rfl rfl
      rintro (_ | _ | j) hj later hlater
      · omega
      · omega
      · cases hlater
    exact ⟨_, s, rfl, hs.current, hcourse, ha, hb⟩
  · let call : Evaluation := ⟨8, .expr (.call callee paren []), pairMachine⟩
    have hparts : call.parts = [⟨7, .expr callee, pairMachine⟩, ⟨7, .exprs [], pairMachine⟩] := rfl
    have hraise : call.Raises ⟨paren, .arity 2 0, some []⟩ := by
      refine ⟨rfl, fun y hy g hg => ?_⟩
      rw [hparts] at hy
      rcases List.mem_cons.1 hy with rfl | hy
      · cases hg
      · obtain rfl := List.mem_singleton.1 hy
        cases hg
    have hlead : Evaluation.Leads ⟨9, .program [.expression .blank (.call callee paren [])],
        pairMachine⟩ [] call :=
      .part (y := ⟨9, .stmt (.expression .blank (.call callee paren [])), pairMachine⟩) (.head _) <|
        .part (y := call) (.head _) (.here call)
    apply (Expr.call_protocol.2 9 _ pairMachine []).2
    refine ⟨[], call, _, [], pairMachine, hlead, hraise, ?_, ?_, rfl⟩
    · exact fun calls' z g' hz hg => hlead.raises_unique hraise hz hg
    · exact @Evaluation.Refuses.call 8 callee paren _ _ _ _ [] hf (.nil _) nofun

end Treescript
