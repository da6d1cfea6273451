import Treescript.Proofs.FuelIndependence

/-!
# Expressions in sequence

The arguments of a call and the conditions of arms are evaluated one after the other, each on the
machine that the one before it has left, up to the first that fails. `Job.Course` tells what an
evaluation does one thing after the other, with such lists taken apart.
-/

namespace Treescript

/-- An expression that has been evaluated to a value. -/
structure Evaluated where
  expr : Expr
  before : Machine
  value : Value
  after : Machine
  ends : (Job.expr expr).Ends before (.ok value) after

def Evaluated.step (r : Evaluated) : Job × Machine := (.expr r.expr, r.before)

/-- Each expression is evaluated on the machine that the one before it has left. -/
inductive Machine.Evaluates : Machine → List Evaluated → Machine → Prop
  | nil (m : Machine) : Evaluates m [] m
  | cons (r : Evaluated) {rs : List Evaluated} {m : Machine} (h : Evaluates r.after rs m) :
    Evaluates r.before (r :: rs) m

open Run.Settles (succ_iff bind_iff bind_error of_run eq_of_const)

theorem Expr.list_ends_of_evaluates {m m' : Machine} {rs : List Evaluated}
    (h : m.Evaluates rs m') :
    (Job.exprs (rs.map Evaluated.expr)).Ends m (.ok (rs.map Evaluated.value)) m' := by
  induction h with
  | nil m => exact succ_iff.1 (of_run rfl nofun)
  | @cons r rs m' _ ih =>
    have hrest : Run.Settles (fun fuel => Expr.evalList fuel (rs.map Evaluated.expr) >>=
        fun vs => pure (r.value :: vs)) r.after (.ok (r.value :: rs.map Evaluated.value)) m' :=
      (bind_iff ih).2 (of_run rfl nofun)
    exact succ_iff.1 ((bind_iff r.ends).2 hrest)

/-- If a list of expressions ends, all of them have been evaluated in sequence, or those before one
that has failed. -/
theorem Expr.list_ends_cases {m m' : Machine} {es : List Expr} {r : Except Stop (List Value)}
    (h : (Job.exprs es).Ends m r m') :
    (∃ rs, m.Evaluates rs m' ∧ rs.map Evaluated.expr = es ∧ r = .ok (rs.map Evaluated.value)) ∨
      ∃ rs e rest m₁ stop, m.Evaluates rs m₁ ∧ es = rs.map Evaluated.expr ++ e :: rest ∧
        (Job.expr e).Ends m₁ (.error stop) m' ∧ r = .error stop := by
  induction es generalizing m r with
  | nil =>
    have hrun : (pure [] : Run (List Value)).run m = (r, m') := eq_of_const (succ_iff.2 h)
    obtain ⟨rfl, rfl⟩ := Prod.mk.inj hrun
    exact .inl ⟨[], .nil _, rfl, rfl⟩
  | cons e es ih =>
    have hfirst : Run.Settles (fun fuel => (Job.expr e).run fuel >>= fun v =>
        Expr.evalList fuel es >>= fun vs => pure (v :: vs)) m r m' := succ_iff.2 h
    rcases Job.Ends.of_bind hfirst with ⟨v, m₁, hv, hrest⟩ | ⟨stop, rfl, hstop⟩
    · let x : Evaluated := ⟨e, m, v, m₁, hv⟩
      have hrest : Run.Settles (fun fuel => (Job.exprs es).run fuel >>= fun vs =>
          pure (v :: vs)) m₁ r m' := hrest
      rcases Job.Ends.of_bind hrest with ⟨vs, m₂, hvs, hlast⟩ | ⟨stop, rfl, hstop⟩
      · obtain ⟨rfl, rfl⟩ := Prod.mk.inj (eq_of_const hlast)
        rcases ih hvs with ⟨rs, hrs, rfl, hval⟩ | ⟨_, _, _, _, _, _, _, _, hval⟩
        · cases hval
          exact .inl ⟨x :: rs, .cons x hrs, rfl, rfl⟩
        · cases hval
      · rcases ih hstop with ⟨_, _, _, hval⟩ | ⟨rs, e', rest, m₂, _, hrs, rfl, he', hval⟩
        · cases hval
        · cases hval
          exact .inr ⟨x :: rs, e', rest, m₂, stop, .cons x hrs, rfl, he', rfl⟩
    · exact .inr ⟨[], e, es, m, stop, .nil m, rfl, hstop, rfl⟩

theorem Expr.list_breaks {m m₁ m' : Machine} {rs : List Evaluated} (h : m.Evaluates rs m₁)
    {e : Expr} {stop : Stop} (he : (Job.expr e).Ends m₁ (.error stop) m') (rest : List Expr) :
    (Job.exprs (rs.map Evaluated.expr ++ e :: rest)).Ends m (.error stop) m' := by
  induction h with
  | nil m => exact succ_iff.1 (bind_error he)
  | cons r _ ih => exact succ_iff.1 ((bind_iff r.ends).2 (bind_error (ih he)))

/-- The expressions that a job evaluates in sequence, if it does nothing else. -/
def Job.sequence? : Job → Option (List Expr)
  | .exprs es => some es
  | .arms as => some (as.map Arm.condition)
  | _ => none

/-- A job as a list of evaluations: of itself, or of the expressions that it has in sequence. -/
def Job.singles : Nat → Machine → Job → List Evaluation
  | 0, m, t => [⟨0, t, m⟩]
  | fuel + 1, m, t =>
    if t.sequence?.isSome then (t.parts fuel m).flatMap fun y => y.job.singles fuel y.machine
    else [⟨fuel + 1, t, m⟩]

def Evaluation.step (x : Evaluation) : Job × Machine := (x.job, x.machine)

def Evaluation.steps (ys : List Evaluation) : List (Job × Machine) :=
  ys.flatMap fun y => (y.job.singles y.fuel y.machine).map step

def Evaluation.course (x : Evaluation) : List (Job × Machine) := steps x.parts

/-- What an evaluation of the job does on the machine, in order, if it has fuel enough: the jobs
that it evaluates itself, each with the machine that it begins on. -/
def Job.Course (t : Job) (m : Machine) (steps : List (Job × Machine)) : Prop :=
  ∃ enough, ∀ fuel ≥ enough, Evaluation.course ⟨fuel, t, m⟩ = steps

theorem Job.Course.of_succ {t : Job} {m : Machine} {steps : List (Job × Machine)} (enough : Nat)
    (h : ∀ fuel ≥ enough, Evaluation.course ⟨fuel + 1, t, m⟩ = steps) : t.Course m steps := by
  refine ⟨enough + 1, fun fuel hfuel => ?_⟩
  obtain ⟨fuel, rfl⟩ : ∃ i, fuel = i + 1 := ⟨fuel - 1, by omega⟩
  exact h fuel (by omega)

theorem Job.singles_of_single {t : Job} (ht : t.sequence? = none) (fuel : Nat) (m : Machine) :
    t.singles fuel m = [⟨fuel, t, m⟩] := by
  cases fuel with
  | zero => rfl
  | succ fuel => simp [Job.singles, ht]

theorem Job.parts_of_sequence_nil {t : Job} (ht : t.sequence? = some []) (fuel : Nat)
    (m : Machine) : t.parts fuel m = [] := by
  match t, ht with
  | .exprs [], _ => rfl
  | .arms [], _ => rfl

theorem Job.parts_of_sequence_cons {t : Job} {e : Expr} {es : List Expr}
    (ht : t.sequence? = some (e :: es)) :
    ∃ u : Job, u.sequence? = some es ∧ ∀ fuel m, t.parts fuel m =
      Evaluation.andThen ⟨fuel, .expr e, m⟩ fun _ m' => [⟨fuel, u, m'⟩] := by
  match t, ht with
  | .exprs (_ :: es), rfl => exact ⟨.exprs es, rfl, fun _ _ => rfl⟩
  | .arms (_ :: rest), rfl => exact ⟨.arms rest, rfl, fun _ _ => rfl⟩

theorem Evaluation.steps_cons (y : Evaluation) (ys : List Evaluation) :
    steps (y :: ys) = (y.job.singles y.fuel y.machine).map step ++ steps ys :=
  List.flatMap_cons

theorem Evaluation.steps_cons_single {y : Evaluation} (hy : y.job.sequence? = none)
    (ys : List Evaluation) : steps (y :: ys) = (y.job, y.machine) :: steps ys := by
  rw [steps_cons, Job.singles_of_single hy]
  rfl

theorem Evaluation.andThen_of_ok {x : Evaluation} {a : x.job.Result} {m : Machine}
    (h : x.outcome = (.ok a, m)) (next : x.job.Result → Machine → List Evaluation) :
    x.andThen next = x :: next a m := by
  rw [andThen, h]

theorem Evaluation.andThen_of_error {x : Evaluation} {stop : Stop} {m : Machine}
    (h : x.outcome = (.error stop, m)) (next : x.job.Result → Machine → List Evaluation) :
    x.andThen next = [x] := by
  rw [andThen, h]

/-- A sequence up to a point, and what is left of it then. -/
theorem Job.singles_of_evaluates {m m' : Machine} {rs : List Evaluated} (h : m.Evaluates rs m')
    {t : Job} {rest : List Expr} (ht : t.sequence? = some (rs.map Evaluated.expr ++ rest)) :
    ∃ u : Job, u.sequence? = some rest ∧ ∃ enough, ∀ fuel ≥ enough,
      (t.singles (fuel + rs.length) m).map Evaluation.step =
        rs.map Evaluated.step ++ (u.singles fuel m').map Evaluation.step := by
  induction h generalizing t with
  | nil m => exact ⟨t, ht, 0, fun _ _ => rfl⟩
  | @cons r rs m' _ ih =>
    obtain ⟨u, hu, hparts⟩ := Job.parts_of_sequence_cons ht
    obtain ⟨v, hv, n, hn⟩ := ih hu
    obtain ⟨k, hk⟩ := r.ends.exists_enough
    refine ⟨v, hv, max k n, fun fuel hfuel => ?_⟩
    have hfirst := Evaluation.andThen_of_ok (hk (fuel + rs.length) (by omega))
      fun _ m' => [⟨fuel + rs.length, u, m'⟩]
    have hsingle : (Job.expr r.expr).singles (fuel + rs.length) r.before =
        [⟨fuel + rs.length, .expr r.expr, r.before⟩] := Job.singles_of_single rfl _ _
    rw [List.length_cons, ← Nat.add_assoc, Job.singles, ht, Option.isSome_some, if_pos rfl, hparts,
      hfirst, List.flatMap_cons, List.flatMap_singleton, hsingle, List.map_append,
      hn fuel (by omega)]
    rfl

theorem Job.singles_of_all_evaluated {m m' : Machine} {rs : List Evaluated}
    (h : m.Evaluates rs m') {t : Job} (ht : t.sequence? = some (rs.map Evaluated.expr)) :
    ∃ enough, ∀ fuel ≥ enough,
      (t.singles fuel m).map Evaluation.step = rs.map Evaluated.step := by
  rw [← List.append_nil (rs.map Evaluated.expr)] at ht
  obtain ⟨u, hu, n, hn⟩ := Job.singles_of_evaluates h ht
  refine ⟨n + rs.length + 1, fun fuel hfuel => ?_⟩
  obtain ⟨k, rfl⟩ : ∃ k, fuel = k + 1 + rs.length := ⟨fuel - rs.length - 1, by omega⟩
  rw [hn (k + 1) (by omega), Job.singles, hu, Option.isSome_some, if_pos rfl,
    Job.parts_of_sequence_nil hu]
  simp

theorem Job.singles_of_break {m m₁ m' : Machine} {rs : List Evaluated} (h : m.Evaluates rs m₁)
    {e : Expr} {stop : Stop} (he : (Job.expr e).Ends m₁ (.error stop) m') {rest : List Expr}
    {t : Job} (ht : t.sequence? = some (rs.map Evaluated.expr ++ e :: rest)) :
    ∃ enough, ∀ fuel ≥ enough,
      (t.singles fuel m).map Evaluation.step = rs.map Evaluated.step ++ [(.expr e, m₁)] := by
  obtain ⟨u, hu, n, hn⟩ := Job.singles_of_evaluates h ht
  obtain ⟨v, -, hparts⟩ := Job.parts_of_sequence_cons hu
  obtain ⟨k, hk⟩ := he.exists_enough
  refine ⟨max n k + rs.length + 1, fun fuel hfuel => ?_⟩
  obtain ⟨j, rfl⟩ : ∃ j, fuel = j + 1 + rs.length := ⟨fuel - rs.length - 1, by omega⟩
  have hlast := Evaluation.andThen_of_error (hk j (by omega)) fun _ m' => [⟨j, v, m'⟩]
  have hsingle : (Job.expr e).singles j m₁ = [⟨j, .expr e, m₁⟩] := Job.singles_of_single rfl _ _
  rw [hn (j + 1) (by omega), Job.singles, hu, Option.isSome_some, if_pos rfl, hparts, hlast,
    List.flatMap_singleton, hsingle]
  rfl

end Treescript
