import Treescript.Proofs.StrictFailures

/-!
# Fuel does not matter

An evaluation that does not run out of fuel goes the same way with any larger amount. So a job has
at most one outcome on a machine, the one that it has with fuel enough, and the outcome of a whole
can be told from those of its parts without a word about fuel.
-/

namespace Treescript

variable {α β : Type}

/-- Where the first run does not run out of fuel, the second one does the same. -/
def Run.RefinedBy (run run' : Run α) : Prop :=
  ∀ m, (run.run m).1 ≠ .error .outOfFuel → run'.run m = run.run m

namespace Run.RefinedBy

variable {run run' : Run α}

theorem same (run : Run α) : run.RefinedBy run := fun _ _ => rfl

theorem outOfFuel (run : Run α) : Run.RefinedBy (throw .outOfFuel) run :=
  fun _ hend => absurd rfl hend

theorem trans {run'' : Run α} (h : run.RefinedBy run') (h' : run'.RefinedBy run'') :
    run.RefinedBy run'' := by
  intro m hend
  have heq := h m hend
  rw [← heq] at hend ⊢
  exact h' m hend

theorem bind {k k' : α → Run β} (h : run.RefinedBy run') (hk : ∀ a, (k a).RefinedBy (k' a)) :
    (run >>= k).RefinedBy (run' >>= k') := by
  intro m hend
  have hrun := h m
  rw [run_bind_eq] at hend
  rw [run_bind_eq, run_bind_eq]
  rcases heq : run.run m with ⟨stop | a, m'⟩
  · rw [heq] at hend hrun
    have hstop : stop ≠ .outOfFuel := by
      rintro rfl
      exact hend rfl
    rw [hrun fun hc => hstop (Except.error.inj hc)]
  · rw [heq] at hend hrun
    rw [hrun nofun]
    exact hk a m' hend

theorem within (scope : ScopeId) (h : run.RefinedBy run') :
    (Run.within scope run).RefinedBy (Run.within scope run') := by
  intro m hend
  have hrun := h { m with current := scope } hend
  simp only [Run.within, ExceptT.run_mk, hrun]

theorem locating (token : Token) (h : run.RefinedBy run') :
    (Run.locating token run).RefinedBy (Run.locating token run') := by
  intro m hend
  have hrun := h m
  rw [Run.locating_run] at hend
  rw [Run.locating_run, Run.locating_run]
  rcases heq : run.run m with ⟨stop | a, m'⟩
  · rw [heq] at hend hrun
    -- only failures are located, so what is located has not run out of fuel
    have hstop : stop ≠ .outOfFuel := by
      rintro rfl
      exact hend rfl
    rw [hrun fun hc => hstop (Except.error.inj hc)]
  · rw [heq] at hrun
    rw [hrun nofun]

end Run.RefinedBy

open Run.RefinedBy

variable {fuel : Nat}

theorem Expr.refined (ih : ∀ t : Job, (t.run fuel).RefinedBy (t.run (fuel + 1))) (e : Expr) :
    (e.eval (fuel + 1)).RefinedBy (e.eval (fuel + 2)) := by
  cases e with
  | hole | literal | «variable» | self | parent | global => exact same _
  | assign _ value _ => exact (ih (.expr value)).bind fun _ => same _
  | unary _ right => exact (ih (.expr right)).bind fun _ => same _
  | binary left _ right =>
    exact (ih (.expr left)).bind fun _ => (ih (.expr right)).bind fun _ => same _
  | logical left operator right =>
    apply (ih (.expr left)).bind
    intro v
    by_cases h : Value.isTruthy v = (operator.kind == .operator .or)
    · rw [if_pos h, if_pos h]
      exact same _
    · rw [if_neg h, if_neg h]
      exact ih (.expr right)
  | count _ target _ _ => exact (ih (.expr target)).bind fun _ => same _
  | call callee paren args =>
    apply (ih (.expr callee)).bind
    intro f
    apply (ih (.exprs args)).bind
    intro vs
    apply (same Run.store).bind
    intro s
    cases s.arity? f with
    | none => exact same _
    | some n =>
      dsimp only
      by_cases h : List.length vs ≠ n
      · rw [if_pos h, if_pos h]
        exact same _
      · rw [if_neg h, if_neg h]
        exact (ih (.invocation f vs)).locating paren
  | group _ inner => exact ih (.expr inner)
  | get object _ => exact (ih (.expr object)).bind fun _ => same _
  | set object _ value =>
    exact (ih (.expr value)).bind fun _ => (ih (.expr object)).bind fun _ => same _

theorem Value.refined (ih : ∀ t : Job, (t.run fuel).RefinedBy (t.run (fuel + 1)))
    (callee : Value) (args : List Value) :
    (callee.call (fuel + 1) args).RefinedBy (callee.call (fuel + 2) args) := by
  cases callee with
  | operation id =>
    exact (same _).bind fun _ => (same _).bind fun closure => ih (.application closure args)
  | type t =>
    apply (same _).bind
    intro id
    apply (same Run.store).bind
    intro s
    cases s.pilot? t with
    | none => exact same _
    | some pilot =>
      apply (same _).bind
      intro s'
      apply (same _).bind
      intro method
      apply (same _).bind
      intro bound
      apply (same _).bind
      intro s''
      apply (same _).bind
      intro closure
      exact (ih (.application closure args)).bind fun _ => same _
  | none | bool | int | float | text | native | holder => exact same _

theorem Stmt.refined (ih : ∀ t : Job, (t.run fuel).RefinedBy (t.run (fuel + 1))) (s : Stmt) :
    (s.exec (fuel + 1)).RefinedBy (s.exec (fuel + 2)) := by
  cases s with
  | hole | operation | arm | object | «enum» => exact same _
  | expression _ value => exact (ih (.expr value)).bind fun _ => same _
  | print _ value => exact (ih (.expr value)).bind fun _ => same _
  | define d => exact (ih (.optional d.initial)).bind fun _ => same _
  | block _ body =>
    exact (same _).bind fun _ => (same _).bind fun scope => (ih (.stmts body)).within scope
  | conditional _ condition branch arms otherwise =>
    apply (ih (.expr condition)).bind
    intro v
    by_cases h : Value.isTruthy v = true
    · rw [if_pos h, if_pos h]
      exact ih (.stmt branch)
    · rw [if_neg h, if_neg h]
      apply (ih (.arms arms)).bind
      intro chosen
      match chosen, otherwise with
      | some chosen, _ => exact ih (.stmt chosen)
      | none, some last => exact ih (.stmt last)
      | none, none => exact same _
  | loop _ condition body => exact ih (.rounds condition body)
  | «return» _ value => exact (ih (.optional value)).bind fun _ => same _
  | form _ _ members =>
    exact (same _).bind fun _ => (ih (.members members .empty)).bind fun _ => same _

/-- One more unit of fuel for everything but a program. -/
theorem Job.refined_step (ih : ∀ t : Job, (t.run fuel).RefinedBy (t.run (fuel + 1))) (t : Job)
    (ht : ∀ p, t ≠ .program p) : (t.run (fuel + 1)).RefinedBy (t.run (fuel + 2)) := by
  match t with
  | .expr e => exact e.refined ih
  | .exprs [] => exact same _
  | .exprs (e :: es) => exact (ih (.expr e)).bind fun _ => (ih (.exprs es)).bind fun _ => same _
  | .optional none => exact same _
  | .optional (some e) => exact ih (.expr e)
  | .invocation callee args => exact callee.refined ih args
  | .application closure args =>
    apply (same _).bind
    intro scope
    exact ((ih (.stmts closure.declaration.body)).within scope).bind fun _ => same _
  | .stmt s => exact s.refined ih
  | .stmts [] => exact same _
  | .stmts (s :: ss) =>
    apply (ih (.stmt s)).bind
    intro completion
    cases completion with
    | normal => exact ih (.stmts ss)
    | returned v => exact same _
  | .arms [] => exact same _
  | .arms (⟨_, condition, _⟩ :: rest) =>
    exact (ih (.expr condition)).bind fun _ => (ih (.arms rest)).bind fun _ => same _
  | .rounds condition body =>
    apply (ih (.expr condition)).bind
    intro v
    by_cases h : Value.isTruthy v = true
    · rw [if_pos h, if_pos h]
      apply (ih (.stmt body)).bind
      intro completion
      cases completion with
      | normal => exact ih (.rounds condition body)
      | returned v => exact same _
    · rw [if_neg h, if_neg h]
      exact same _
  | .members [] _ => exact same _
  | .members (⟨_, name, initial⟩ :: rest) before =>
    apply (ih (.optional initial)).bind
    intro v
    exact (same _).bind fun _ => ih (.members rest (before.insert name.text v))
  | .program p => exact absurd rfl (ht p)

theorem Program.refined {fuel' : Nat} (ih : ∀ s : Stmt, (s.exec fuel).RefinedBy (s.exec fuel'))
    (p : Program) : (p.run fuel).RefinedBy (p.run fuel') := by
  induction p with
  | nil => exact same _
  | cons s rest ihp => exact (ih s).bind fun _ => ihp

theorem Job.refined_succ (fuel : Nat) (t : Job) : (t.run fuel).RefinedBy (t.run (fuel + 1)) := by
  induction fuel generalizing t with
  | zero =>
    cases t with
    | program p => exact @Program.refined 0 1 (fun s => outOfFuel (s.exec 1)) p
    | _ => exact outOfFuel _
  | succ fuel ih =>
    have hstep := Job.refined_step ih
    cases t with
    | program p => exact p.refined fun s => hstep (.stmt s) nofun
    | _ => exact hstep _ nofun

theorem Job.refined_of_le {fuel fuel' : Nat} (h : fuel ≤ fuel') (t : Job) :
    (t.run fuel).RefinedBy (t.run fuel') := by
  induction h with
  | refl => exact same _
  | step _ ih => exact ih.trans (t.refined_succ _)

/-- With fuel enough, and any more of it, the run has this outcome. -/
def Run.Settles (run : Nat → Run α) (m : Machine) (r : Except Stop α) (m' : Machine) : Prop :=
  r ≠ .error .outOfFuel ∧ ∃ enough, ∀ fuel ≥ enough, (run fuel).run m = (r, m')

/-- The outcome of a job that ends. -/
def Job.Ends (t : Job) (m : Machine) (r : Except Stop t.Result) (m' : Machine) : Prop :=
  Run.Settles (fun fuel => t.run fuel) m r m'

namespace Run.Settles

variable {run : Nat → Run α} {m m' m₁ : Machine} {r : Except Stop α} {a : α}

theorem unique (h : Settles run m r m') {r' : Except Stop α} {m'' : Machine}
    (h' : Settles run m r' m'') : r' = r ∧ m'' = m' := by
  obtain ⟨-, k, hk⟩ := h
  obtain ⟨-, k', hk'⟩ := h'
  have hfirst := hk (max k k') (by omega)
  have hsecond := hk' (max k k') (by omega)
  exact Prod.mk.inj (hsecond.symm.trans hfirst)

/-- Runs that settle alike on a machine settle in the same ways. -/
theorem iff_of_same {run' : Nat → Run α} {r₀ : Except Stop α} {m₀ : Machine}
    (h : Settles run m r₀ m₀) (h' : Settles run' m r₀ m₀) :
    Settles run m r m' ↔ Settles run' m r m' := by
  constructor
  · intro hr
    obtain ⟨rfl, rfl⟩ := h.unique hr
    exact h'
  · intro hr
    obtain ⟨rfl, rfl⟩ := h'.unique hr
    exact h

theorem of_run {run : Run α} (h : run.run m = (r, m')) (hr : r ≠ .error .outOfFuel) :
    Settles (fun _ => run) m r m' :=
  ⟨hr, 0, fun _ _ => h⟩

theorem eq_of_const {run : Run α} (h : Settles (fun _ => run) m r m') : run.run m = (r, m') := by
  obtain ⟨-, k, hk⟩ := h
  exact hk k (by omega)

theorem succ_iff : Settles (fun fuel => run (fuel + 1)) m r m' ↔ Settles run m r m' := by
  constructor
  · rintro ⟨hr, k, hk⟩
    refine ⟨hr, k + 1, fun fuel hfuel => ?_⟩
    obtain ⟨fuel, rfl⟩ : ∃ j, fuel = j + 1 := ⟨fuel - 1, by omega⟩
    exact hk fuel (by omega)
  · rintro ⟨hr, k, hk⟩
    exact ⟨hr, k, fun fuel hfuel => hk (fuel + 1) (by omega)⟩

/-- After a part that has a result, the run settles as the rest of it does. -/
theorem bind_iff (h : Settles run m (.ok a) m₁) {k : Nat → α → Run β} {r : Except Stop β} :
    Settles (fun fuel => run fuel >>= k fuel) m r m' ↔ Settles (fun fuel => k fuel a) m₁ r m' := by
  obtain ⟨-, enough, hrun⟩ := h
  have hbind : ∀ fuel ≥ enough, (run fuel >>= k fuel).run m = (k fuel a).run m₁ := by
    intro fuel hfuel
    rw [run_bind_eq, hrun fuel hfuel]
  constructor
  · rintro ⟨hr, n, hn⟩
    refine ⟨hr, max enough n, fun fuel hfuel => ?_⟩
    rw [← hbind fuel (by omega)]
    exact hn fuel (by omega)
  · rintro ⟨hr, n, hn⟩
    refine ⟨hr, max enough n, fun fuel hfuel => ?_⟩
    rw [hbind fuel (by omega)]
    exact hn fuel (by omega)

theorem bind_error {stop : Stop} (h : Settles run m (.error stop) m') {k : Nat → α → Run β} :
    Settles (fun fuel => run fuel >>= k fuel) m (.error stop) m' := by
  obtain ⟨hr, enough, hrun⟩ := h
  have hstop : stop ≠ .outOfFuel := by
    rintro rfl
    exact hr rfl
  refine ⟨fun hc => hstop (Except.error.inj hc), enough, fun fuel hfuel => ?_⟩
  rw [run_bind_eq, hrun fuel hfuel]

end Run.Settles

namespace Job.Ends

variable {t : Job} {m m' : Machine} {r : Except Stop t.Result}

theorem of_outcome {fuel : Nat} (h : Evaluation.outcome ⟨fuel, t, m⟩ = (r, m'))
    (hr : r ≠ .error .outOfFuel) : t.Ends m r m' := by
  refine ⟨hr, fuel, fun fuel' hle => ?_⟩
  have hrun : (t.run fuel).run m = (r, m') := h
  have hsame := t.refined_of_le hle m
  rw [hrun] at hsame
  exact hsame hr

theorem exists_enough (h : t.Ends m r m') :
    ∃ enough, ∀ fuel ≥ enough, Evaluation.outcome ⟨fuel, t, m⟩ = (r, m') := h.2

/-- A run that begins with a job settles only if the job ends. -/
theorem of_bind {β : Type} {k : Nat → t.Result → Run β} {r : Except Stop β}
    (h : Run.Settles (fun fuel => t.run fuel >>= k fuel) m r m') :
    (∃ a m₁, t.Ends m (.ok a) m₁ ∧ Run.Settles (fun fuel => k fuel a) m₁ r m') ∨
      ∃ stop, r = .error stop ∧ t.Ends m (.error stop) m' := by
  obtain ⟨hr, enough, hrun⟩ := id h
  have hbind := hrun enough (Nat.le_refl _)
  rw [run_bind_eq] at hbind
  rcases heq : (t.run enough).run m with ⟨stop | a, m₁⟩
  · rw [heq] at hbind
    obtain ⟨rfl, rfl⟩ := Prod.mk.inj hbind
    exact .inr ⟨stop, rfl, of_outcome heq fun hc => hr (congrArg _ (Except.error.inj hc))⟩
  · have hends : t.Ends m (.ok a) m₁ := of_outcome heq nofun
    exact .inl ⟨a, m₁, hends, (Run.Settles.bind_iff hends).1 h⟩

end Job.Ends

section

open Run.Settles (succ_iff bind_iff bind_error of_run)

variable {m : Machine} {r : Except Stop Value} {m' : Machine}

theorem Expr.literal_ends (token : Token) (value : Literal) (m : Machine) :
    (Job.expr (.literal token value)).Ends m (.ok (.ofLiteral value)) m :=
  succ_iff.1 (of_run rfl nofun)

theorem Expr.group_ends {token : Token} {inner : Expr} (h : (Job.expr inner).Ends m r m') :
    (Job.expr (.group token inner)).Ends m r m' :=
  succ_iff.1 h

theorem Run.operator_settles (token : Token) (result : Except Cause Value) (m : Machine) :
    Run.Settles (fun _ => Run.operator token result) m
      (result.mapError fun cause => .failure ⟨token, cause, none⟩) m := by
  cases result with
  | ok v => exact of_run rfl nofun
  | error cause => exact of_run rfl nofun

theorem Expr.unary_ends {op : Token} {right : Expr} {v : Value}
    (h : (Job.expr right).Ends m (.ok v) m') :
    (Job.expr (.unary op right)).Ends m
      ((Operator.prefixed op v).mapError fun cause => .failure ⟨op, cause, none⟩) m' :=
  succ_iff.1 ((bind_iff h).2 (Run.operator_settles op _ m'))

theorem Expr.unary_ends_error {op : Token} {right : Expr} {stop : Stop}
    (h : (Job.expr right).Ends m (.error stop) m') :
    (Job.expr (.unary op right)).Ends m (.error stop) m' :=
  succ_iff.1 (bind_error h)

variable {left right : Expr} {op : Token} {m₁ : Machine} {v w : Value} {stop : Stop}

theorem Expr.binary_ends (hleft : (Job.expr left).Ends m (.ok v) m₁)
    (hright : (Job.expr right).Ends m₁ (.ok w) m') :
    (Job.expr (.binary left op right)).Ends m
      ((Operator.between m'.store op v w).mapError fun cause => .failure ⟨op, cause, none⟩) m' := by
  have hstore : Run.Settles (fun _ => Run.store) m' (.ok m'.store) m' := of_run rfl nofun
  exact succ_iff.1 ((bind_iff hleft).2 ((bind_iff hright).2 ((bind_iff hstore).2
    (Run.operator_settles op _ m'))))

theorem Expr.binary_ends_left (h : (Job.expr left).Ends m (.error stop) m') :
    (Job.expr (.binary left op right)).Ends m (.error stop) m' :=
  succ_iff.1 (bind_error h)

theorem Expr.binary_ends_right (hleft : (Job.expr left).Ends m (.ok v) m₁)
    (hright : (Job.expr right).Ends m₁ (.error stop) m') :
    (Job.expr (.binary left op right)).Ends m (.error stop) m' :=
  succ_iff.1 ((bind_iff hleft).2 (bind_error hright))

end

end Treescript
