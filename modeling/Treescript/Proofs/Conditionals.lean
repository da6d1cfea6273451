import Mathlib.Order.Bounds.Basic
import Treescript.Proofs.SequencedEvaluations

/-!
# Conditionals

A conditional whose condition is truthy is its branch. Otherwise the conditions of all arms are
evaluated in sequence, also those after one that holds. Only then a branch is run: that of the first
arm whose condition was truthy, or the last one if there is no such arm.
-/

namespace Treescript

/-- The branch of an arm if its condition has a truthy value, else the branch of a later one. -/
def Arm.orLater (a : Arm) (v : Value) (later : Option Stmt) : Option Stmt :=
  match v.isTruthy, a.branch with
  | true, .hole => later
  | true, branch => some branch
  | false, _ => later

/-- The branch of the first arm whose condition has a truthy value. -/
def Arm.chosen? : List Arm → List Value → Option Stmt
  | a :: as, v :: vs => a.orLater v (Arm.chosen? as vs)
  | _, _ => none

theorem Arm.choose_eq (fuel : Nat) (as : List Arm) :
    Arm.choose fuel as = do
      let vs ← Expr.evalList fuel (as.map Arm.condition)
      return Arm.chosen? as vs := by
  induction as generalizing fuel with
  | nil => cases fuel <;> rfl
  | cons a as ih =>
    obtain ⟨token, condition, branch⟩ := a
    cases fuel with
    | zero => rfl
    | succ fuel =>
      rw [Arm.choose, List.map_cons, Expr.evalList, bind_assoc]
      congr 1
      funext v
      rw [ih, bind_assoc, bind_assoc]
      congr 1
      funext vs
      rw [pure_bind, pure_bind, Arm.chosen?, Arm.orLater.eq_def]
      cases v.isTruthy with
      | false => rfl
      | true => cases branch <;> rfl

/-- The condition of the arm has a truthy value. An arm without a branch, which no document has, does
not hold. -/
def Arm.Holds (as : List Arm) (rs : List Evaluated) (k : Nat) : Prop :=
  ∃ a r, as[k]? = some a ∧ rs[k]? = some r ∧ r.value.isTruthy = true ∧ a.branch ≠ .hole

/-- The branch that is run when the conditions of all arms have been evaluated. -/
inductive Arm.Chooses (as : List Arm) (rs : List Evaluated) (last : Option Stmt) :
    Option Stmt → Prop
  | arm (k : Nat) (a : Arm) (hk : IsLeast {j | Arm.Holds as rs j} k) (ha : as[k]? = some a) :
    Arm.Chooses as rs last (some a.branch)
  | last (h : ∀ j, ¬Arm.Holds as rs j) : Arm.Chooses as rs last last

theorem Arm.Holds.zero_iff {a : Arm} {as : List Arm} {r : Evaluated} {rs : List Evaluated} :
    Arm.Holds (a :: as) (r :: rs) 0 ↔ r.value.isTruthy = true ∧ a.branch ≠ .hole := by
  simp [Arm.Holds]

theorem Arm.Holds.succ_iff {a : Arm} {as : List Arm} {r : Evaluated} {rs : List Evaluated}
    {k : Nat} : Arm.Holds (a :: as) (r :: rs) (k + 1) ↔ Arm.Holds as rs k := by
  simp [Arm.Holds]

theorem Arm.orLater_of_holds {a : Arm} {as : List Arm} {r : Evaluated} {rs : List Evaluated}
    (h : Arm.Holds (a :: as) (r :: rs) 0) (later : Option Stmt) :
    a.orLater r.value later = some a.branch := by
  obtain ⟨htruthy, hbranch⟩ := Arm.Holds.zero_iff.1 h
  rw [Arm.orLater.eq_def, htruthy]
  cases hb : a.branch with
  | hole => exact absurd hb hbranch
  | _ => rfl

theorem Arm.orLater_of_not_holds {a : Arm} {as : List Arm} {r : Evaluated} {rs : List Evaluated}
    (h : ¬Arm.Holds (a :: as) (r :: rs) 0) (later : Option Stmt) :
    a.orLater r.value later = later := by
  rw [Arm.Holds.zero_iff, not_and, not_not] at h
  rw [Arm.orLater.eq_def]
  cases htruthy : r.value.isTruthy with
  | false => rfl
  | true => rw [h htruthy]

/-- An arm that does not hold leaves the choice to those after it. -/
theorem Arm.Chooses.skip {a : Arm} {as : List Arm} {r : Evaluated} {rs : List Evaluated}
    {last chosen : Option Stmt} (ha : ¬Arm.Holds (a :: as) (r :: rs) 0)
    (h : Arm.Chooses as rs last chosen) : Arm.Chooses (a :: as) (r :: rs) last chosen := by
  cases h with
  | arm k b hk hb =>
    apply Arm.Chooses.arm (k + 1) b
    · refine ⟨Arm.Holds.succ_iff.2 hk.1, fun j hj => ?_⟩
      cases j with
      | zero => exact absurd hj ha
      | succ j =>
        have hle : k ≤ j := hk.2 (Arm.Holds.succ_iff.1 hj)
        omega
    · exact hb
  | last h =>
    apply Arm.Chooses.last
    intro j hj
    cases j with
    | zero => exact ha hj
    | succ j => exact h j (Arm.Holds.succ_iff.1 hj)

theorem Arm.Chooses.unique {as : List Arm} {rs : List Evaluated} {last s? t? : Option Stmt}
    (hs : Arm.Chooses as rs last s?) (ht : Arm.Chooses as rs last t?) : s? = t? := by
  cases hs with
  | arm k a hk ha =>
    cases ht with
    | arm j b hj hb =>
      rw [hk.unique hj, hb] at ha
      rw [Option.some.inj ha]
    | last ht => exact absurd hk.1 (ht k)
  | last hs =>
    cases ht with
    | arm j b hj hb => exact absurd hj.1 (hs j)
    | last ht => rfl

theorem Arm.chooses_chosen? (as : List Arm) (rs : List Evaluated)
    (h : as.map Arm.condition = rs.map Evaluated.expr) (last : Option Stmt) :
    Arm.Chooses as rs last ((Arm.chosen? as (rs.map Evaluated.value)).or last) := by
  induction as generalizing rs with
  | nil =>
    apply Arm.Chooses.last
    rintro j ⟨a, r, ha, -⟩
    simp at ha
  | cons a as ih =>
    cases rs with
    | nil => simp at h
    | cons r rs =>
      obtain ⟨-, h⟩ := List.cons.inj h
      rw [List.map_cons, Arm.chosen?]
      by_cases hholds : Arm.Holds (a :: as) (r :: rs) 0
      · rw [Arm.orLater_of_holds hholds]
        exact .arm 0 a ⟨hholds, fun j _ => Nat.zero_le j⟩ rfl
      · rw [Arm.orLater_of_not_holds hholds]
        exact (ih rs h).skip hholds

section

open Run.Settles (succ_iff bind_iff bind_error of_run eq_of_const)

variable {token : Token} {condition : Expr} {branch : Stmt} {as : List Arm} {last : Option Stmt}
  {m m₁ m₂ m' : Machine} {v : Value} {rs : List Evaluated}

theorem Arm.ends_of_evaluates (h : m.Evaluates rs m')
    (has : as.map Arm.condition = rs.map Evaluated.expr) :
    (Job.arms as).Ends m (.ok (Arm.chosen? as (rs.map Evaluated.value))) m' := by
  have hlist := Expr.list_ends_of_evaluates h
  rw [← has] at hlist
  have hchoose : Run.Settles (fun fuel => Expr.evalList fuel (as.map Arm.condition) >>= fun vs =>
      pure (Arm.chosen? as vs)) m (.ok (Arm.chosen? as (rs.map Evaluated.value))) m' :=
    (bind_iff hlist).2 (of_run rfl nofun)
  simp only [← Arm.choose_eq] at hchoose
  exact hchoose

theorem Arm.ends_of_break (h : m.Evaluates rs m₁) {e : Expr} {rest : List Expr} {stop : Stop}
    (has : as.map Arm.condition = rs.map Evaluated.expr ++ e :: rest)
    (he : (Job.expr e).Ends m₁ (.error stop) m') : (Job.arms as).Ends m (.error stop) m' := by
  have hlist := Expr.list_breaks h he rest
  rw [← has] at hlist
  have hchoose : Run.Settles (fun fuel => Expr.evalList fuel (as.map Arm.condition) >>= fun vs =>
      pure (Arm.chosen? as vs)) m (.error stop) m' := bind_error hlist
  simp only [← Arm.choose_eq] at hchoose
  exact hchoose

/-- Arms end only if their conditions do. -/
theorem Arm.conditions_end {r : Except Stop (Option Stmt)} (h : (Job.arms as).Ends m r m') :
    (∃ rs, m.Evaluates rs m' ∧ as.map Arm.condition = rs.map Evaluated.expr) ∨
      ∃ rs e rest m₁ stop, m.Evaluates rs m₁ ∧
        as.map Arm.condition = rs.map Evaluated.expr ++ e :: rest ∧
        (Job.expr e).Ends m₁ (.error stop) m' := by
  have hchoose : Run.Settles (fun fuel => Arm.choose fuel as) m r m' := h
  simp only [Arm.choose_eq] at hchoose
  have hlist : Run.Settles (fun fuel => (Job.exprs (as.map Arm.condition)).run fuel >>= fun vs =>
      pure (Arm.chosen? as vs)) m r m' := hchoose
  rcases Job.Ends.of_bind hlist with ⟨vs, m₂, hvs, hlast⟩ | ⟨stop, rfl, hstop⟩
  · obtain ⟨-, rfl⟩ := Prod.mk.inj (eq_of_const hlast)
    rcases Expr.list_ends_cases hvs with ⟨rs, hrs, has, -⟩ | ⟨_, _, _, _, _, _, _, _, hr⟩
    · exact .inl ⟨rs, hrs, has.symm⟩
    · cases hr
  · rcases Expr.list_ends_cases hstop with
      ⟨_, _, _, hr⟩ | ⟨rs, e, rest, m₁, stop', hrs, has, he, -⟩
    · cases hr
    · exact .inr ⟨rs, e, rest, m₁, stop', hrs, has, he⟩

/-- Runs a statement unless it is missing. -/
def Stmt.execOptional (fuel : Nat) : Option Stmt → Run Completion
  | some s => s.exec fuel
  | none => return .normal

theorem Stmt.conditional_exec (fuel : Nat) :
    (Stmt.conditional token condition branch as last).exec (fuel + 1) =
      condition.eval fuel >>= fun v =>
        if v.isTruthy then branch.exec fuel
        else Arm.choose fuel as >>= fun chosen => Stmt.execOptional fuel (chosen.or last) := by
  rw [Stmt.exec]
  congr 1
  funext v
  congr 2
  funext chosen
  cases chosen with
  | some _ => rfl
  | none => cases last <;> rfl

theorem Stmt.conditional_ends_iff {r : Except Stop Completion} :
    (Job.stmt (.conditional token condition branch as last)).Ends m r m' ↔
      Run.Settles (fun fuel => (Job.expr condition).run fuel >>= fun v =>
        if Value.isTruthy v then branch.exec fuel
        else (Job.arms as).run fuel >>= fun chosen =>
          Stmt.execOptional fuel (Option.or chosen last)) m r m' := by
  rw [Job.Ends, ← succ_iff]
  simp only [Job.run, Stmt.conditional_exec]

theorem Stmt.conditional_ends_of_error {stop : Stop}
    (hc : (Job.expr condition).Ends m (.error stop) m') :
    (Job.stmt (.conditional token condition branch as last)).Ends m (.error stop) m' :=
  Stmt.conditional_ends_iff.2 (bind_error hc)

theorem Stmt.conditional_ends_of_truthy (hc : (Job.expr condition).Ends m (.ok v) m₁)
    (hv : v.isTruthy = true) {r : Except Stop Completion} :
    (Job.stmt (.conditional token condition branch as last)).Ends m r m' ↔
      (Job.stmt branch).Ends m₁ r m' := by
  rw [Stmt.conditional_ends_iff, bind_iff hc]
  simp only [hv, if_true]
  rfl

theorem Stmt.conditional_ends_of_falsy (hc : (Job.expr condition).Ends m (.ok v) m₁)
    (hv : v.isTruthy = false) {r : Except Stop Completion} :
    (Job.stmt (.conditional token condition branch as last)).Ends m r m' ↔
      Run.Settles (fun fuel => (Job.arms as).run fuel >>= fun chosen =>
        Stmt.execOptional fuel (Option.or chosen last)) m₁ r m' := by
  rw [Stmt.conditional_ends_iff, bind_iff hc]
  simp only [hv, Bool.false_eq_true, if_false]

/-- How a statement that may be missing ends. -/
def Stmt.OptionalEnds (s? : Option Stmt) (m : Machine) (r : Except Stop Completion)
    (m' : Machine) : Prop :=
  match s? with
  | some s => (Job.stmt s).Ends m r m'
  | none => r = .ok .normal ∧ m' = m

theorem Stmt.optionalEnds_iff {s? : Option Stmt} {r : Except Stop Completion} :
    Run.Settles (fun fuel => Stmt.execOptional fuel s?) m r m' ↔ Stmt.OptionalEnds s? m r m' := by
  cases s? with
  | some s => rfl
  | none =>
    constructor
    · intro hnone
      obtain ⟨rfl, rfl⟩ := Prod.mk.inj (eq_of_const hnone)
      exact ⟨rfl, rfl⟩
    · rintro ⟨rfl, rfl⟩
      exact of_run rfl nofun

theorem Stmt.conditional_ends_of_evaluates (hc : (Job.expr condition).Ends m (.ok v) m₁)
    (hv : v.isTruthy = false) (h : m₁.Evaluates rs m₂)
    (has : as.map Arm.condition = rs.map Evaluated.expr) {r : Except Stop Completion} :
    (Job.stmt (.conditional token condition branch as last)).Ends m r m' ↔
      Stmt.OptionalEnds ((Arm.chosen? as (rs.map Evaluated.value)).or last) m₂ r m' := by
  rw [Stmt.conditional_ends_of_falsy hc hv, bind_iff (Arm.ends_of_evaluates h has),
    Stmt.optionalEnds_iff]

theorem Stmt.conditional_course_of_error {stop : Stop}
    (hc : (Job.expr condition).Ends m (.error stop) m') :
    (Job.stmt (.conditional token condition branch as last)).Course m [(.expr condition, m)] := by
  obtain ⟨k, hk⟩ := hc.exists_enough
  refine .of_succ k fun fuel hfuel => ?_
  have hparts : Evaluation.parts
      ⟨fuel + 1, .stmt (.conditional token condition branch as last), m⟩ = _ :=
    Evaluation.andThen_of_error (hk fuel hfuel) _
  rw [Evaluation.course, hparts, Evaluation.steps_cons_single rfl]
  rfl

theorem Stmt.conditional_parts_of_ok (hc : (Job.expr condition).Ends m (.ok v) m₁) :
    ∃ enough, ∀ fuel ≥ enough,
      Evaluation.course ⟨fuel + 1, .stmt (.conditional token condition branch as last), m⟩ =
        (.expr condition, m) :: Evaluation.steps
          (if v.isTruthy then [⟨fuel, .stmt branch, m₁⟩]
          else Evaluation.andThen ⟨fuel, .arms as, m₁⟩ fun chosen m =>
            (Option.or chosen last).toList.map fun s => ⟨fuel, .stmt s, m⟩) := by
  obtain ⟨k, hk⟩ := hc.exists_enough
  refine ⟨k, fun fuel hfuel => ?_⟩
  have hparts : Evaluation.parts
      ⟨fuel + 1, .stmt (.conditional token condition branch as last), m⟩ = _ :=
    Evaluation.andThen_of_ok (hk fuel hfuel) _
  rw [Evaluation.course, hparts, Evaluation.steps_cons_single rfl]

theorem Stmt.conditional_course_of_truthy (hc : (Job.expr condition).Ends m (.ok v) m₁)
    (hv : v.isTruthy = true) :
    (Job.stmt (.conditional token condition branch as last)).Course m
      [(.expr condition, m), (.stmt branch, m₁)] := by
  obtain ⟨k, hk⟩ := Stmt.conditional_parts_of_ok hc
  refine .of_succ k fun fuel hfuel => ?_
  rw [hk fuel hfuel, if_pos hv, Evaluation.steps_cons_single rfl]
  rfl

theorem Stmt.conditional_course_of_break (hc : (Job.expr condition).Ends m (.ok v) m₁)
    (hv : v.isTruthy = false) (h : m₁.Evaluates rs m₂) {e : Expr} {rest : List Expr} {stop : Stop}
    (has : as.map Arm.condition = rs.map Evaluated.expr ++ e :: rest)
    (he : (Job.expr e).Ends m₂ (.error stop) m') :
    (Job.stmt (.conditional token condition branch as last)).Course m
      ((.expr condition, m) :: rs.map Evaluated.step ++ [(.expr e, m₂)]) := by
  obtain ⟨k, hk⟩ := Stmt.conditional_parts_of_ok hc
  obtain ⟨j, hj⟩ := (Arm.ends_of_break h has he).exists_enough
  have hsequence : (Job.arms as).sequence? = some (rs.map Evaluated.expr ++ e :: rest) :=
    congrArg some has
  obtain ⟨n, hn⟩ := Job.singles_of_break h he hsequence
  refine .of_succ (max k (max j n)) fun fuel hfuel => ?_
  rw [hk fuel (by omega), hv, if_neg Bool.false_ne_true,
    Evaluation.andThen_of_error (hj fuel (by omega)), Evaluation.steps_cons, hn fuel (by omega)]
  simp [Evaluation.steps]

theorem Stmt.conditional_course_of_evaluates (hc : (Job.expr condition).Ends m (.ok v) m₁)
    (hv : v.isTruthy = false) (h : m₁.Evaluates rs m₂)
    (has : as.map Arm.condition = rs.map Evaluated.expr) :
    (Job.stmt (.conditional token condition branch as last)).Course m
      ((.expr condition, m) :: rs.map Evaluated.step ++
        ((Arm.chosen? as (rs.map Evaluated.value)).or last).toList.map (.stmt ·, m₂)) := by
  obtain ⟨k, hk⟩ := Stmt.conditional_parts_of_ok hc
  obtain ⟨j, hj⟩ := (Arm.ends_of_evaluates h has).exists_enough
  have hsequence : (Job.arms as).sequence? = some (rs.map Evaluated.expr) := congrArg some has
  obtain ⟨n, hn⟩ := Job.singles_of_all_evaluated h hsequence
  refine .of_succ (max k (max j n)) fun fuel hfuel => ?_
  rw [hk fuel (by omega), hv, if_neg Bool.false_ne_true,
    Evaluation.andThen_of_ok (hj fuel (by omega)), Evaluation.steps_cons, hn fuel (by omega)]
  cases (Arm.chosen? as (rs.map Evaluated.value)).or last with
  | none => simp [Evaluation.steps]
  | some s =>
    rw [Option.toList_some, List.map_singleton, Evaluation.steps_cons_single rfl]
    rfl

end

/-- A conditional evaluates its condition, and if that is truthy, nothing but the branch after it.
If not, it evaluates the conditions of its arms in sequence, all of them unless one fails, and then
runs at most one branch, on the machine that the last condition has left. -/
theorem Stmt.conditional_runs_one_branch (token : Token) (condition : Expr) (branch : Stmt)
    (as : List Arm) (last : Option Stmt) (m : Machine) :
    let whole := Job.stmt (.conditional token condition branch as last)
    (∀ stop m', (Job.expr condition).Ends m (.error stop) m' →
      whole.Ends m (.error stop) m' ∧ whole.Course m [(.expr condition, m)]) ∧
    (∀ v m₁, (Job.expr condition).Ends m (.ok v) m₁ → v.isTruthy = true →
      (∀ r m', whole.Ends m r m' ↔ (Job.stmt branch).Ends m₁ r m') ∧
      whole.Course m [(.expr condition, m), (.stmt branch, m₁)]) ∧
    (∀ v m₁, (Job.expr condition).Ends m (.ok v) m₁ → v.isTruthy = false →
      (∀ rs m₂ e rest stop m', m₁.Evaluates rs m₂ →
        as.map Arm.condition = rs.map Evaluated.expr ++ e :: rest →
        (Job.expr e).Ends m₂ (.error stop) m' →
        whole.Ends m (.error stop) m' ∧
        whole.Course m ((.expr condition, m) :: rs.map Evaluated.step ++ [(.expr e, m₂)])) ∧
      (∀ rs m₂, m₁.Evaluates rs m₂ → as.map Arm.condition = rs.map Evaluated.expr →
        ∃ chosen, (∀ s?, Arm.Chooses as rs last s? ↔ s? = chosen) ∧
          (∀ r m', whole.Ends m r m' ↔ Stmt.OptionalEnds chosen m₂ r m') ∧
          whole.Course m ((.expr condition, m) :: rs.map Evaluated.step ++
            chosen.toList.map (.stmt ·, m₂))) ∧
      ∀ r m', whole.Ends m r m' →
        (∃ rs m₂, m₁.Evaluates rs m₂ ∧ as.map Arm.condition = rs.map Evaluated.expr) ∨
        ∃ rs m₂ e rest stop, m₁.Evaluates rs m₂ ∧
          as.map Arm.condition = rs.map Evaluated.expr ++ e :: rest ∧
          (Job.expr e).Ends m₂ (.error stop) m') ∧
    ∀ r m', whole.Ends m r m' → ∃ r₁ m₁, (Job.expr condition).Ends m r₁ m₁ := by
  intro whole
  refine ⟨fun stop m' hc => ?_, fun v m₁ hc hv => ?_, fun v m₁ hc hv => ⟨?_, ?_, ?_⟩, ?_⟩
  · exact ⟨Stmt.conditional_ends_of_error hc, Stmt.conditional_course_of_error hc⟩
  · exact ⟨fun r m' => Stmt.conditional_ends_of_truthy hc hv,
      Stmt.conditional_course_of_truthy hc hv⟩
  · intro rs m₂ e rest stop m' h has he
    have harms := Arm.ends_of_break h has he
    exact ⟨(Stmt.conditional_ends_of_falsy hc hv).2 (Run.Settles.bind_error harms),
      Stmt.conditional_course_of_break hc hv h has he⟩
  · intro rs m₂ h has
    refine ⟨_, fun s? => ?_, fun r m' => Stmt.conditional_ends_of_evaluates hc hv h has,
      Stmt.conditional_course_of_evaluates hc hv h has⟩
    have hchosen := Arm.chooses_chosen? as rs has last
    exact ⟨fun hs => hs.unique hchosen, fun hs => hs ▸ hchosen⟩
  · intro r m' hwhole
    rcases Job.Ends.of_bind ((Stmt.conditional_ends_of_falsy hc hv).1 hwhole) with
      ⟨chosen, m₂, has, -⟩ | ⟨stop, -, has⟩
    · rcases Arm.conditions_end has with ⟨rs, hrs, heq⟩ | ⟨rs, e, rest, m₃, stop, hrs, heq, he⟩
      · exact .inl ⟨rs, _, hrs, heq⟩
      · have hstop := Run.Settles.unique has (Arm.ends_of_break hrs heq he)
        cases hstop.1
    · rcases Arm.conditions_end has with ⟨rs, hrs, heq⟩ | ⟨rs, e, rest, m₃, stop, hrs, heq, he⟩
      · exact .inl ⟨rs, _, hrs, heq⟩
      · exact .inr ⟨rs, m₃, e, rest, stop, hrs, heq, he⟩
  · intro r m' hwhole
    rcases Job.Ends.of_bind (Stmt.conditional_ends_iff.1 hwhole) with ⟨v, m₁, hc, -⟩ | ⟨stop, -, hc⟩
    · exact ⟨.ok v, m₁, hc⟩
    · exact ⟨.error stop, m', hc⟩

/-- Three arms, of which the second holds; the conditions of the others assign `x`. -/
def assigningArms : List Arm :=
  let assign (value : Literal) : Expr :=
    .assign ⟨.identifier, "x", 1, .null⟩ (.literal .blank value) none
  let print (n : Int64) : Stmt := .print .blank (.literal .blank (.int n))
  [⟨.blank, assign (.bool false), print 1⟩, ⟨.blank, .literal .blank (.bool true), print 2⟩,
    ⟨.blank, assign (.int 7), print 3⟩]

theorem assigningArms_run :
    ∃ m', (Job.stmt (.conditional .blank (.literal .blank (.bool false)) .hole assigningArms
        none)).Ends (Machine.start ⟨fun _ => 0, 0⟩ [("x", .int 1)]) (.ok .normal) m' ∧
      m'.events = #[.printed "2"] ∧ m'.store.scopes.get? m'.globals "x" = some (.int 7) := by
  let m := Machine.start ⟨fun _ => 0, 0⟩ [("x", .int 1)]
  let assigned (v : Value) : Machine := { m with store := m.store.define m.globals "x" v }
  let again : Machine :=
    { m with store := (assigned (.bool false)).store.define m.globals "x" (.int 7) }
  let x : Token := ⟨.identifier, "x", 1, .null⟩
  let r₀ : Evaluated := ⟨.assign x (.literal .blank (.bool false)) none, m, .bool false,
    assigned (.bool false), @Job.Ends.of_outcome _ _ _ _ 2 rfl nofun⟩
  let r₁ : Evaluated := ⟨.literal .blank (.bool true), assigned (.bool false), .bool true,
    assigned (.bool false), @Job.Ends.of_outcome _ _ _ _ 1 rfl nofun⟩
  let r₂ : Evaluated := ⟨.assign x (.literal .blank (.int 7)) none, assigned (.bool false), .int 7,
    again, @Job.Ends.of_outcome _ _ _ _ 2 rfl nofun⟩
  have hc : (Job.expr (.literal .blank (.bool false))).Ends m (.ok (.bool false)) m :=
    @Job.Ends.of_outcome _ _ _ _ 1 rfl nofun
  have hrs : m.Evaluates [r₀, r₁, r₂] again := .cons r₀ (.cons r₁ (.cons r₂ (.nil _)))
  obtain ⟨chosen, hchosen, hends, -⟩ :=
    ((Stmt.conditional_runs_one_branch .blank (.literal .blank (.bool false)) .hole assigningArms
      none m).2.2.1 _ _ hc rfl).2.1 _ _ hrs rfl
  let second : Arm :=
    ⟨.blank, .literal .blank (.bool true), .print .blank (.literal .blank (.int 2))⟩
  have hholds : Arm.Holds assigningArms [r₀, r₁, r₂] 1 := ⟨second, r₁, rfl, rfl, rfl, nofun⟩
  have hleast : ∀ j, Arm.Holds assigningArms [r₀, r₁, r₂] j → 1 ≤ j := by
    rintro j ⟨a, r, -, hr, htruthy, -⟩
    cases j with
    | zero =>
      cases hr
      cases htruthy
    | succ j => omega
  have hsecond : Arm.Chooses assigningArms [r₀, r₁, r₂] none (some second.branch) :=
    .arm 1 second ⟨hholds, hleast⟩ rfl
  rw [← (hchosen _).1 hsecond] at hends
  exact ⟨_, (hends _ _).2 (@Job.Ends.of_outcome _ _ _ _ 2 rfl nofun), rfl, rfl⟩

end Treescript
