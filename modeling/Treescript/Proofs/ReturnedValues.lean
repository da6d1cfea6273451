import Treescript.Proofs.RaisedFailures

/-!
# Returned values

A returned value goes up through everything around it that is part of the same body: each block,
conditional, loop and list of statements ends at once and passes it on. The operation whose body it
is takes it as its result, and its caller goes on with a value like any other.
-/

namespace Treescript

def Completion.returned? : Completion → Option Value
  | .normal => none
  | .returned v => some v

namespace Job

/-- Jobs that end as a statement does. -/
def IsStatement : Job → Prop
  | stmt _ | stmts _ | rounds .. => True
  | expr _ | exprs _ | optional _ | invocation .. | application .. | arms _ | members ..
  | program _ => False

def IsApplication : Job → Prop
  | application .. => True
  | expr _ | exprs _ | optional _ | invocation .. | stmt _ | stmts _ | arms _ | rounds ..
  | members .. | program _ => False

def returned? : (t : Job) → t.Result → Option Value
  | stmt _ | stmts _ | rounds .. => Completion.returned?
  | expr _ | exprs _ | optional _ | invocation .. | application .. | arms _ | members ..
  | program _ => fun _ => none

theorem isStatement_of_returned? {t : Job} {a : t.Result} {v : Value}
    (h : t.returned? a = some v) : t.IsStatement := by
  cases t with
  | stmt | stmts | rounds => trivial
  | _ => cases h

theorem IsStatement.not_application {t : Job} (h : t.IsStatement) : ¬t.IsApplication := by
  cases t with
  | stmt | stmts | rounds => exact id
  | _ => exact h.elim

/-- Statements are run by statements and by operations. -/
theorem isStatement_of_part {fuel : Nat} {m : Machine} {t : Job} {y : Evaluation}
    (h : y ∈ t.parts fuel m) (hy : y.job.IsStatement) : t.IsStatement ∨ t.IsApplication := by
  unfold Job.parts at h
  split at h <;> grind [Evaluation.mem_andThen, IsStatement, IsApplication]

end Job

namespace Evaluation

def Returns (x : Evaluation) (v : Value) (s : Machine) : Prop :=
  ∃ a, x.outcome = (.ok a, s) ∧ x.job.returned? a = some v

/-- The second evaluation takes place in the course of the first, and in no operation that is called
on the way to it. -/
inductive Within : Evaluation → Evaluation → Prop
  | here (x : Evaluation) : x.Within x
  | part {x y z : Evaluation} (hy : y ∈ x.parts) (hjob : ¬y.job.IsApplication) (h : y.Within z) :
    x.Within z

variable {x z : Evaluation} {v : Value} {s : Machine}

theorem Returns.isStatement (h : x.Returns v s) : x.job.IsStatement := by
  obtain ⟨a, -, ha⟩ := h
  exact Job.isStatement_of_returned? ha

/-- An evaluation is in the same invocation, or in that of an operation called since. -/
theorem Leads.within {calls : List Token} (h : x.Leads calls z) :
    x.Within z ∨ ∃ calls' a, x.Leads calls' a ∧ a.job.IsApplication ∧ a.Within z := by
  induction h with
  | here x => exact .inl (.here x)
  | @part x y z calls hy h ih =>
    rcases ih with hz | ⟨calls', a, ha, hjob, hz⟩
    · by_cases hjob : y.job.IsApplication
      · exact .inr ⟨_, y, .part hy (.here y), hjob, hz⟩
      · exact .inl (.part hy hjob hz)
    · exact .inr ⟨_, a, .part hy ha, hjob, hz⟩

end Evaluation

def Run.Continuing (run : Run Completion) : Prop :=
  ∀ m c s, run.run m = (.ok c, s) → c.returned? = none

namespace Run.Continuing

variable {α : Type}

theorem normal : Run.Continuing (pure .normal) := by
  rintro m c s ⟨⟩
  rfl

theorem throw (stop : Stop) : Run.Continuing (throw stop) := by
  rintro m c s ⟨⟩

theorem bind {run : Run α} {k : α → Run Completion} (h : ∀ a, Run.Continuing (k a)) :
    Run.Continuing (run >>= k) := by
  intro m c s hrun
  rw [run_bind_eq] at hrun
  split at hrun
  · next a m' _ => exact h a m' c s hrun
  · cases hrun

end Run.Continuing

theorem Run.returned_iff (run : Run Completion) (m s : Machine) (v : Value) :
    (∃ c, run.run m = (.ok c, s) ∧ c.returned? = some v) ↔
      run.run m = (.ok (.returned v), s) := by
  constructor
  · rintro ⟨_ | w, hrun, hw⟩
    · cases hw
    · cases hw
      exact hrun
  · exact fun hrun => ⟨_, hrun, rfl⟩

/-- The evaluations are the parts of a run: the first of them to return a value is the last, and the
run returns the same value on the machine that it left. The run returns nothing else. -/
structure Run.Unwinds (run : Run Completion) (m : Machine) (ys : List Evaluation) : Prop where
  up : ∀ before y after v s, ys = before ++ y :: after → y.Returns v s →
    after = [] ∧ run.run m = (.ok (.returned v), { s with current := m.current })
  down : ∀ v s, run.run m = (.ok (.returned v), s) → ∃ y ∈ ys, ∃ s', y.Returns v s'

namespace Run.Unwinds

variable {α : Type} {run : Run Completion} {m m' : Machine} {ys : List Evaluation}

theorem quiet (hrun : Run.Continuing run) (hys : ∀ y ∈ ys, ¬y.job.IsStatement) :
    Run.Unwinds run m ys := by
  constructor
  · intro before y after v s hparts hy
    exact absurd hy.isStatement (hys y (hparts ▸ List.mem_append_cons_self))
  · intro v s h
    cases hrun m _ s h

theorem nil (hrun : Run.Continuing run) : Run.Unwinds run m [] :=
  quiet hrun (List.forall_mem_nil _)

theorem single (hrun : Run.Continuing run) {y : Evaluation} (hy : ¬y.job.IsStatement) :
    Run.Unwinds run m [y] :=
  quiet hrun (List.forall_mem_singleton.2 hy)

theorem of_run_eq {run' : Run Completion} (h : run.run m = run'.run m')
    (hcurrent : m'.current = m.current) (hu : Run.Unwinds run' m' ys) : Run.Unwinds run m ys := by
  constructor
  · intro before y after v s hys hy
    rw [h, ← hcurrent]
    exact hu.up before y after v s hys hy
  · rw [h]
    exact hu.down

theorem step {prim : Run α} {k : α → Run Completion} {a : α} (h : prim.run m = (.ok a, m'))
    (hcurrent : m'.current = m.current) (hk : Run.Unwinds (k a) m' ys) :
    Run.Unwinds (prim >>= k) m ys :=
  of_run_eq (by rw [run_bind_eq, h]) hcurrent hk

theorem tail (x : Evaluation)
    (h : ∀ v s, x.Returns v s ↔ run.run x.machine = (.ok (.returned v), s)) :
    Run.Unwinds run x.machine [x] := by
  constructor
  · intro before y after v s hys hy
    obtain ⟨rfl, rfl, rfl⟩ : before = [] ∧ y = x ∧ after = [] := by
      cases before <;> simp_all
    obtain ⟨a, hout, -⟩ := id hy
    rw [← Evaluation.current_eq hout]
    exact ⟨rfl, (h v s).1 hy⟩
  · intro v s hrun
    exact ⟨x, List.mem_singleton_self x, s, (h v s).2 hrun⟩

theorem stmt (fuel : Nat) (s : Stmt) :
    Run.Unwinds (s.exec fuel) m [⟨fuel, .stmt s, m⟩] :=
  tail ⟨fuel, .stmt s, m⟩ fun v s' => Run.returned_iff (s.exec fuel) m s' v

theorem stmts (fuel : Nat) (ss : List Stmt) :
    Run.Unwinds (Stmt.execList fuel ss) m [⟨fuel, .stmts ss, m⟩] :=
  tail ⟨fuel, .stmts ss, m⟩ fun v s' => Run.returned_iff (Stmt.execList fuel ss) m s' v

theorem rounds (fuel : Nat) (condition : Expr) (body : Stmt) :
    Run.Unwinds (Stmt.repeat fuel condition body) m [⟨fuel, .rounds condition body, m⟩] :=
  tail ⟨fuel, .rounds condition body, m⟩ fun v s' =>
    Run.returned_iff (Stmt.repeat fuel condition body) m s' v

/-- A part, and what follows it. If the part returns a value then nothing follows, and the run does
no more than pass the value on. -/
theorem part (fuel : Nat) (t : Job) {k : t.Result → Run Completion}
    {next : t.Result → Machine → List Evaluation}
    (hreturned : ∀ a v, t.returned? a = some v → k a = pure (.returned v) ∧ ∀ m', next a m' = [])
    (hk : ∀ a m', t.returned? a = none → Run.Unwinds (k a) m' (next a m')) :
    Run.Unwinds (t.run fuel >>= k) m (Evaluation.andThen ⟨fuel, t, m⟩ next) := by
  rw [Evaluation.andThen]
  rcases hx : Evaluation.outcome ⟨fuel, t, m⟩ with ⟨stop | a, m'⟩
  · have hrun : (t.run fuel >>= k).run m = (.error stop, m') := by
      rw [run_bind_eq, show (t.run fuel).run m = (.error stop, m') from hx]
    constructor
    · intro before y after v s hys hy
      obtain ⟨rfl, rfl, rfl⟩ : before = [] ∧ y = ⟨fuel, t, m⟩ ∧ after = [] := by
        cases before <;> simp_all
      obtain ⟨a, ha, -⟩ := hy
      cases hx.symm.trans ha
    · intro v s h
      cases hrun.symm.trans h
  · have hcurrent : m'.current = m.current := Evaluation.current_eq hx
    have hbind : (t.run fuel >>= k).run m = (k a).run m' := by
      rw [run_bind_eq, show (t.run fuel).run m = (.ok a, m') from hx]
    cases ha : t.returned? a with
    | some w =>
      -- there are no further parts, and the run ends with what this one returned
      obtain ⟨hk', hnext⟩ := hreturned a w ha
      have hrun : (t.run fuel >>= k).run m = (.ok (.returned w), m') := by
        rw [hbind, hk']
        rfl
      simp only [hnext]
      refine tail ⟨fuel, t, m⟩ fun v s => ?_
      rw [show (t.run fuel >>= k).run _ = _ from hrun]
      constructor
      · rintro ⟨b, hb, hv⟩
        cases hx.symm.trans hb
        cases ha.symm.trans hv
        rfl
      · rintro ⟨⟩
        exact ⟨a, hx, ha⟩
    | none =>
      have hnext := hk a m' ha
      constructor
      · intro before y after v s hys hy
        cases before with
        | nil =>
          obtain ⟨rfl, -⟩ := List.cons.inj hys
          obtain ⟨b, hb, hv⟩ := hy
          cases hx.symm.trans hb
          cases ha.symm.trans hv
        | cons first before =>
          rw [hbind, ← hcurrent]
          exact hnext.up before y after v s (List.cons.inj hys).2 hy
      · intro v s h
        obtain ⟨y, hy, hv⟩ := hnext.down v s (hbind ▸ h)
        exact ⟨y, List.mem_cons_of_mem _ hy, hv⟩

/-- A part that never returns a value, and what follows it. -/
theorem plain (fuel : Nat) (t : Job) {k : t.Result → Run Completion}
    {next : t.Result → Machine → List Evaluation} (ht : ∀ a, t.returned? a = none)
    (hk : ∀ a m', Run.Unwinds (k a) m' (next a m')) :
    Run.Unwinds (t.run fuel >>= k) m (Evaluation.andThen ⟨fuel, t, m⟩ next) := by
  refine part fuel t (fun a v h => ?_) fun a m' _ => hk a m'
  cases (ht a).symm.trans h

theorem within (scope : ScopeId) (h : Run.Unwinds run { m with current := scope } ys) :
    Run.Unwinds (Run.within scope run) m ys := by
  constructor
  · intro before y after v s hys hy
    obtain ⟨hafter, hrun⟩ := h.up before y after v s hys hy
    refine ⟨hafter, ?_⟩
    simp only [Run.within, ExceptT.run_mk, hrun]
  · intro v s hrun
    obtain ⟨hresult, -⟩ := Prod.mk.inj hrun
    exact h.down v _ (Prod.ext hresult rfl)

end Run.Unwinds

open Run.Unwinds

theorem Stmt.unwinds (fuel : Nat) (m : Machine) (s : Stmt)
    (hs : ∀ keyword value, s ≠ .return keyword value) :
    Run.Unwinds (s.exec (fuel + 1)) m (Job.parts fuel m (.stmt s)) := by
  cases s with
  | hole => exact nil (.throw _)
  | arm a => exact nil (.throw _)
  | operation => exact nil (.bind fun _ => .bind fun _ => .bind fun _ => .normal)
  | object | «enum» => exact nil (.bind fun _ => .normal)
  | expression _ value =>
    exact single (.bind fun _ => .normal) id
  | print _ value =>
    exact single (.bind fun _ => .bind fun _ => .bind fun _ => .normal) id
  | define d =>
    exact single (.bind fun _ => .bind fun _ => .normal) id
  | form _ name members =>
    exact single (.bind fun _ => .bind fun _ => .bind fun _ => .normal) id
  | block _ body =>
    refine step (Run.run_get m) rfl (step rfl rfl ?_)
    exact (stmts fuel body).within _
  | conditional _ condition branch arms otherwise =>
    refine plain fuel (.expr condition) (fun _ => rfl) fun value m₁ => ?_
    by_cases h : Value.isTruthy value = true
    · rw [if_pos h, if_pos h]
      exact stmt fuel branch
    · rw [if_neg h, if_neg h]
      refine plain fuel (.arms arms) (fun _ => rfl) fun chosen m₂ => ?_
      match chosen, otherwise with
      | some chosen, _ => exact stmt fuel chosen
      | none, some last => exact stmt fuel last
      | none, none => exact nil .normal
  | loop _ condition body => exact rounds fuel condition body
  | «return» keyword value => exact absurd rfl (hs keyword value)

theorem Stmt.unwindsList (fuel : Nat) (m : Machine) (ss : List Stmt) :
    Run.Unwinds (Stmt.execList (fuel + 1) ss) m (Job.parts fuel m (.stmts ss)) := by
  cases ss with
  | nil => exact nil .normal
  | cons s ss =>
    refine part fuel (.stmt s) ?_ fun completion m' h => ?_
    · rintro (_ | v) w ⟨⟩
      exact ⟨rfl, fun _ => rfl⟩
    · cases completion with
      | normal => exact stmts fuel ss
      | returned v => cases h

theorem Stmt.unwindsRepeat (fuel : Nat) (m : Machine) (condition : Expr) (body : Stmt) :
    Run.Unwinds (Stmt.repeat (fuel + 1) condition body) m
      (Job.parts fuel m (.rounds condition body)) := by
  refine plain fuel (.expr condition) (fun _ => rfl) fun value m₁ => ?_
  by_cases h : Value.isTruthy value = true
  · rw [if_pos h, if_pos h]
    refine part fuel (.stmt body) ?_ fun completion m₂ h => ?_
    · rintro (_ | v) w ⟨⟩
      exact ⟨rfl, fun _ => rfl⟩
    · cases completion with
      | normal => exact rounds fuel condition body
      | returned v => cases h
  · rw [if_neg h, if_neg h]
    exact nil .normal

namespace Evaluation

variable {x y r : Evaluation} {v : Value} {s : Machine} {before after : List Evaluation}

theorem unwinds (x : Evaluation) (hx : x.job.IsStatement)
    (hreturn : ∀ keyword value, x.job ≠ .stmt (.return keyword value)) :
    ∃ run : Run Completion,
      (∀ v s, x.Returns v s ↔ run.run x.machine = (.ok (.returned v), s)) ∧
      Run.Unwinds run x.machine x.parts := by
  -- the three jobs have a completion as their result, yet the type of `x.outcome` hides this
  match x with
  | ⟨0, .stmt s, m⟩ =>
    exact ⟨s.exec 0, fun v s' => Run.returned_iff _ m s' v, nil (.throw _)⟩
  | ⟨0, .stmts ss, m⟩ =>
    exact ⟨Stmt.execList 0 ss, fun v s' => Run.returned_iff _ m s' v, nil (.throw _)⟩
  | ⟨0, .rounds condition body, m⟩ =>
    exact ⟨Stmt.repeat 0 condition body, fun v s' => Run.returned_iff _ m s' v,
      nil (.throw _)⟩
  | ⟨fuel + 1, .stmt s, m⟩ =>
    refine ⟨s.exec (fuel + 1), fun v s' => Run.returned_iff _ m s' v, s.unwinds fuel m ?_⟩
    rintro keyword value rfl
    exact hreturn keyword value rfl
  | ⟨fuel + 1, .stmts ss, m⟩ =>
    exact ⟨_, fun v s' => Run.returned_iff _ m s' v, Stmt.unwindsList fuel m ss⟩
  | ⟨fuel + 1, .rounds condition body, m⟩ =>
    exact ⟨_, fun v s' => Run.returned_iff _ m s' v, Stmt.unwindsRepeat fuel m condition body⟩

theorem isStatement_of_part (hy : y ∈ x.parts) (hjob : y.job.IsStatement)
    (happ : ¬x.job.IsApplication) (hprogram : ∀ p, x.job ≠ .program p) :
    x.job.IsStatement ∧ ∀ keyword value, x.job ≠ .stmt (.return keyword value) := by
  obtain ⟨fuel, -, hpart⟩ := mem_parts hy hprogram
  refine ⟨(Job.isStatement_of_part hpart hjob).resolve_right happ, fun keyword value hreturn => ?_⟩
  rw [hreturn] at hpart
  obtain rfl := List.mem_singleton.1 hpart
  exact hjob

theorem Returns.of_part (hy : y.Returns v s) (hx : x.parts = before ++ y :: after)
    (happ : ¬x.job.IsApplication) (hprogram : ∀ p, x.job ≠ .program p) :
    after = [] ∧ x.Returns v { s with current := x.machine.current } := by
  have hmem : y ∈ x.parts := hx ▸ List.mem_append_cons_self
  obtain ⟨hjob, hreturn⟩ := isStatement_of_part hmem hy.isStatement happ hprogram
  obtain ⟨run, hrun, hunwinds⟩ := x.unwinds hjob hreturn
  obtain ⟨hafter, hup⟩ := hunwinds.up before y after v s hx hy
  exact ⟨hafter, (hrun _ _).2 hup⟩

theorem ne_program_of_part (hy : y ∈ x.parts) (hprogram : ∀ p, x.job ≠ .program p) :
    ∀ p, y.job ≠ .program p := by
  obtain ⟨fuel, -, hpart⟩ := mem_parts hy hprogram
  exact (Job.of_mem_parts hpart).2

/-- Whatever is around a return in the same body returns the value as well, and does no more. -/
theorem Returns.of_within (hr : r.Returns v s) (h : x.Within r) (happ : ¬x.job.IsApplication)
    (hprogram : ∀ p, x.job ≠ .program p) : x.Returns v { s with current := x.machine.current } := by
  induction h with
  | here x =>
    obtain ⟨a, hout, -⟩ := id hr
    rw [← current_eq hout]
    exact hr
  | part hy hjob _ ih =>
    obtain ⟨before, after, hparts⟩ := List.append_of_mem hy
    exact ((ih hr hjob (ne_program_of_part hy hprogram)).of_part hparts happ hprogram).2

/-- What is returned has been returned by a return statement in the same body. -/
theorem Returns.exists_return (h : x.Returns v s) :
    ∃ r keyword value s', x.Within r ∧ r.job = .stmt (.return keyword value) ∧ r.Returns v s' := by
  induction x using parts_induction generalizing s with
  | step x ih =>
    by_cases hx : ∃ keyword value, x.job = .stmt (.return keyword value)
    · obtain ⟨keyword, value, hx⟩ := hx
      exact ⟨x, keyword, value, s, .here x, hx, h⟩
    · have hreturn : ∀ keyword value, x.job ≠ .stmt (.return keyword value) :=
        fun keyword value heq => hx ⟨keyword, value, heq⟩
      obtain ⟨run, hrun, hunwinds⟩ := x.unwinds h.isStatement hreturn
      obtain ⟨y, hy, s', hs⟩ := hunwinds.down v s ((hrun v s).1 h)
      obtain ⟨r, keyword, value, s₁, hr, hjob, hs₁⟩ := ih y hy hs
      exact ⟨r, keyword, value, s₁, .part hy hs.isStatement.not_application hr, hjob, hs₁⟩

end Evaluation

/-- What an operation makes of a returned value: a pilot hands back its instance instead. -/
def Closure.yields (c : Closure) (s : Store) (v : Value) : Value :=
  if c.isPilot then (s.scopes.get? c.scope selfName).getD v else v

/-- What an invocation makes of the result of its operation: a type gives the new holder. -/
def Value.gives (callee : Value) (m : Machine) (result : Value) : Value :=
  match callee with
  | .type t => .holder t m.store.holders.size
  | _ => result

theorem Closure.call_of_body {fuel : Nat} {closure : Closure} {args : List Value} {m s : Machine}
    {v : Value}
    (h : (Stmt.execList fuel closure.declaration.body).run
      (m.enter closure.scope ((closure.declaration.params.map (·.text)).zip args)) =
        (.ok (.returned v), s)) :
    (closure.call (fuel + 1) args).run m =
      (.ok (closure.yields s.store v), { s with current := m.current }) := by
  let entered := m.enter closure.scope ((closure.declaration.params.map (·.text)).zip args)
  have hbody : (Run.within entered.current (Stmt.execList fuel closure.declaration.body)).run
      { entered with current := m.current } =
        (.ok (.returned v), { s with current := m.current }) := by
    simp only [Run.within, ExceptT.run_mk]
    rw [show (Stmt.execList fuel closure.declaration.body).run entered = _ from h]
  rw [Closure.call, run_bind_eq]
  change (Run.within entered.current _ >>= _).run { entered with current := m.current } = _
  rw [run_bind_eq, hbody]
  dsimp only
  rw [run_bind_eq, Run.run_store, Closure.yields]
  dsimp only
  cases closure.isPilot with
  | false => rfl
  | true => cases s.store.scopes.get? closure.scope selfName <;> rfl

namespace Evaluation

variable {r : Evaluation} {v : Value} {s m : Machine} {fuel : Nat} {args : List Value}

/-- The operation that a return belongs to takes the value as its result. -/
theorem Returns.application (hr : r.Returns v s) {closure : Closure}
    (h : Within ⟨fuel, .application closure args, m⟩ r) :
    (closure.call fuel args).run m =
      (.ok (closure.yields s.store v), { s with current := m.current }) := by
  cases h with
  | here => exact hr.isStatement.elim
  | part hy hjob h =>
    obtain ⟨n, rfl, hpart⟩ := mem_parts hy nofun
    obtain rfl := List.mem_singleton.1 hpart
    have hbody := hr.of_within h hjob nofun
    have hcall := Closure.call_of_body ((Run.returned_iff _ _ _ _).1 hbody)
    exact hcall

end Evaluation

theorem Value.call_of_application {fuel n : Nat} {callee result : Value} {args vs : List Value}
    {m m' s : Machine} {closure : Closure}
    (hpart : ⟨n, .application closure vs, m'⟩ ∈ Evaluation.parts ⟨fuel, .invocation callee args, m⟩)
    (h : (closure.call n vs).run m' = (.ok result, s)) :
    (callee.call fuel args).run m = (.ok (callee.gives m result), s) := by
  obtain ⟨n, rfl, hpart⟩ := Evaluation.mem_parts hpart nofun
  dsimp only at hpart
  cases callee with
  | operation id =>
    obtain ⟨c, hc, heq⟩ := List.mem_map.1 hpart
    cases heq
    rw [Value.call, run_bind_eq, Run.run_store]
    dsimp only
    rw [Option.mem_toList.1 hc]
    exact h
  | type t =>
    obtain ⟨method, hmethod, heq⟩ := List.mem_map.1 hpart
    cases heq
    obtain ⟨pilot, hpilot, hclosure⟩ := Option.bind_eq_some_iff.1 (Option.mem_toList.1 hmethod)
    have hrun := Value.call_type_run n t args m
    simp only [hpilot, hclosure] at hrun
    rw [hrun, run_bind_eq, h]
    rfl
  | none | native | bool | int | float | text | holder => cases hpart

theorem Expr.call_of_invocation {fuel n : Nat} {callee : Expr} {paren : Token} {args : List Expr}
    {f result : Value} {vs : List Value} {m m' s : Machine}
    (hpart : ⟨n, .invocation f vs, m'⟩ ∈
      Evaluation.parts ⟨fuel, .expr (.call callee paren args), m⟩)
    (h : (f.call n vs).run m' = (.ok result, s)) :
    ((Expr.call callee paren args).eval fuel).run m = (.ok result, s) := by
  obtain ⟨n, rfl, hpart⟩ := Evaluation.mem_parts hpart nofun
  rcases Evaluation.mem_andThen.1 hpart with heq | ⟨f', m₁, hf, hpart⟩
  · cases heq
  rcases Evaluation.mem_andThen.1 hpart with heq | ⟨vs', m₂, hvs, hpart⟩
  · cases heq
  split at hpart
  · next harity =>
    cases List.mem_singleton.1 hpart
    have hcallee : (callee.eval n).run m = (.ok f, m₁) := hf
    have hargs : (Expr.evalList n args).run m₁ = (.ok vs, m') := hvs
    rw [Expr.eval, run_bind_eq, hcallee]
    dsimp only
    rw [run_bind_eq, hargs]
    dsimp only
    rw [run_bind_eq, Run.run_store]
    dsimp only
    rw [harity]
    dsimp only
    rw [if_neg (not_not_intro rfl), Run.locating_run, h]
  · cases hpart

namespace Evaluation

variable {x r : Evaluation} {v : Value} {s m : Machine} {fuel : Nat} {closure : Closure}
  {args : List Value}

theorem Within.not_application {w : Evaluation} (h : x.Within w) :
    w = x ∨ ¬w.job.IsApplication := by
  induction h with
  | here => exact .inl rfl
  | part _ hjob _ ih =>
    rcases ih with rfl | hw
    · exact .inr hjob
    · exact .inr hw

theorem Within.ne_program {w : Evaluation} (h : x.Within w) (hx : ∀ p, x.job ≠ .program p) :
    ∀ p, w.job ≠ .program p := by
  induction h with
  | here => exact hx
  | part hy _ _ ih => exact ih (ne_program_of_part hy hx)

/-- A returned value ends the application of an operation, and no more than that: all that is
between the return and the application passes the value on and has no further parts, the application
has what the operation makes of the value as its result, and whatever invoked it goes on from
there. -/
structure Unwound (r : Evaluation) (v : Value) (s : Machine) (closure : Closure)
    (a : Evaluation) : Prop where
  passed : ∀ w, a.Within w → w.Within r → w ≠ a →
    w.Returns v { s with current := w.machine.current }
  last : ∀ w before y after, a.Within w → w.parts = before ++ y :: after →
    ¬y.job.IsApplication → y.Within r → after = []
  applied : ∀ fuel args m, a = ⟨fuel, .application closure args, m⟩ →
    (closure.call fuel args).run m =
      (.ok (closure.yields s.store v), { s with current := m.current })
  invoked : ∀ fuel callee args m, a ∈ parts ⟨fuel, .invocation callee args, m⟩ →
    (callee.call fuel args).run m =
      (.ok (callee.gives m (closure.yields s.store v)), { s with current := m.current })
  called : ∀ fuel callee paren args m n f vs m',
    ⟨n, .invocation f vs, m'⟩ ∈ parts ⟨fuel, .expr (.call callee paren args), m⟩ →
    a ∈ parts ⟨n, .invocation f vs, m'⟩ →
    ((Expr.call callee paren args).eval fuel).run m =
      (.ok (f.gives m' (closure.yields s.store v)), { s with current := m.current })

theorem outcome_current {a : Except Stop x.job.Result} {scope : ScopeId}
    (h : x.outcome = (a, { s with current := scope })) :
    x.outcome = (a, { s with current := x.machine.current }) := by
  have hcurrent : scope = x.machine.current := current_eq h
  rw [h, hcurrent]

theorem Returns.unwound (hr : r.Returns v s) (h : Within ⟨fuel, .application closure args, m⟩ r) :
    r.Unwound v s closure ⟨fuel, .application closure args, m⟩ := by
  have happlied := hr.application h
  have hinvoked : ∀ fuel' callee args' m',
      ⟨fuel, .application closure args, m⟩ ∈ parts ⟨fuel', .invocation callee args', m'⟩ →
      (callee.call fuel' args').run m' =
        (.ok (callee.gives m' (closure.yields s.store v)), { s with current := m'.current }) := by
    intro fuel' callee args' m' hpart
    exact outcome_current (x := ⟨fuel', .invocation callee args', m'⟩)
      (Value.call_of_application hpart happlied)
  refine ⟨fun w hw hwr hne => ?_, fun w before y after hw hparts hjob hy => ?_, ?_, hinvoked, ?_⟩
  · exact hr.of_within hwr (hw.not_application.resolve_left hne) (hw.ne_program nofun)
  · rcases hw.not_application with rfl | happ
    · -- the application has one part, its body
      have hlength := congrArg List.length hparts
      cases fuel with
      | zero => cases before <;> cases hlength
      | succ fuel =>
        change 1 = _ at hlength
        rw [List.length_append, List.length_cons] at hlength
        exact List.length_eq_zero_iff.1 (by omega)
    · have hprogram := hw.ne_program nofun
      have hreturns := hr.of_within hy hjob
        (ne_program_of_part (hparts ▸ List.mem_append_cons_self) hprogram)
      exact (hreturns.of_part hparts happ hprogram).1
  · rintro fuel' args' m' ⟨⟩
    exact happlied
  · intro fuel' callee paren args' m' n f vs m₁ hcall hpart
    exact outcome_current (x := ⟨fuel', .expr (.call callee paren args'), m'⟩)
      (Expr.call_of_invocation hcall (hinvoked n f vs m₁ hpart))

end Evaluation

end Treescript
