import Treescript.Proofs.StrictFailures

/-!
# Raised failures

An evaluation raises a failure when it fails and none of its parts does. A run that fails has just
one such evaluation, and the failure that the run ends with is the one raised there, located by the
calls around it if it had no place. The machine is the one on which the failure was raised: nothing
happens after that.
-/

namespace Treescript

theorem Job.of_mem_parts {fuel : Nat} {m : Machine} {t : Job} {y : Evaluation}
    (h : y ∈ t.parts fuel m) : y.fuel = fuel ∧ ∀ p, y.job ≠ .program p := by
  unfold Job.parts at h
  split at h <;> grind [Evaluation.mem_andThen]

namespace Evaluation

/-- Only the parts of a program have all its fuel. -/
theorem mem_parts {x y : Evaluation} (hy : y ∈ x.parts) (hx : ∀ p, x.job ≠ .program p) :
    ∃ fuel, x.fuel = fuel + 1 ∧ y ∈ x.job.parts fuel x.machine := by
  obtain ⟨fuel, t, m⟩ := x
  cases t with
  | program p => exact absurd rfl (hx p)
  | _ =>
    cases fuel with
    | zero => cases hy
    | succ fuel => exact ⟨fuel, rfl, hy⟩

/-- What holds of an evaluation whenever it holds of its parts holds of all evaluations. -/
theorem parts_induction {motive : Evaluation → Prop}
    (step : ∀ x, (∀ y ∈ x.parts, motive y) → motive x) (x : Evaluation) : motive x := by
  -- all but a program leave less fuel to their parts; a program has fewer statements left
  have hjob : ∀ fuel t m, (∀ p, t ≠ .program p) → motive ⟨fuel, t, m⟩ := by
    intro fuel
    induction fuel with
    | zero =>
      intro t m ht
      refine step _ fun y hy => ?_
      obtain ⟨_, ⟨⟩, -⟩ := mem_parts hy ht
    | succ fuel ih =>
      intro t m ht
      refine step _ fun y hy => ?_
      obtain ⟨_, ⟨⟩, hpart⟩ := mem_parts hy ht
      obtain ⟨rfl, hprogram⟩ := Job.of_mem_parts hpart
      exact ih y.job y.machine hprogram
  obtain ⟨fuel, t, m⟩ := x
  cases t with
  | program p =>
    induction p generalizing m with
    | nil => exact step _ nofun
    | cons s rest ih =>
      refine step _ fun y hy => ?_
      rcases mem_andThen.1 hy with rfl | ⟨_, m', -, hy⟩
      · exact hjob fuel (.stmt s) m nofun
      · obtain rfl := List.mem_singleton.1 hy
        exact ih m'
  | _ => exact hjob fuel _ m nofun

/-- Of the parts of an evaluation only one can be without a result. -/
theorem eq_of_stopped {x y z : Evaluation} (hy : y ∈ x.parts) (hz : z ∈ x.parts) {stop stop' : Stop}
    {s s' : Machine} (hstop : y.outcome = (.error stop, s))
    (hstop' : z.outcome = (.error stop', s')) : y = z := by
  obtain ⟨before, after, hparts⟩ := List.append_of_mem hy
  obtain ⟨before', after', hparts'⟩ := List.append_of_mem hz
  obtain ⟨rfl, -⟩ := stops_of_part hparts hstop
  obtain ⟨rfl, -⟩ := stops_of_part hparts' hstop'
  have hlast := hparts.symm.trans hparts'
  simpa using congrArg List.getLast? hlast

/-- The second evaluation is one of the parts of the first, or of their parts, and so on. The tokens
are those of the calls on the way to it, the innermost first. -/
inductive Leads : Evaluation → List Token → Evaluation → Prop
  | here (x : Evaluation) : x.Leads [] x
  | part {x y z : Evaluation} {calls : List Token} (hy : y ∈ x.parts) (h : y.Leads calls z) :
    x.Leads (calls ++ x.job.calls y.job) z

/-- The evaluation fails, and none of its parts does. -/
def Raises (x : Evaluation) (f : Failure) : Prop :=
  x.outcome.1 = .error (.failure f) ∧ ∀ y ∈ x.parts, ∀ g, y.outcome.1 ≠ .error (.failure g)

theorem Leads.stops {x y : Evaluation} {calls : List Token} (h : x.Leads calls y) {stop : Stop}
    {s : Machine} (hy : y.outcome = (.error stop, s)) :
    x.outcome = (.error (stop.locatedAll calls), { s with current := x.machine.current }) := by
  induction h with
  | here x =>
    rw [hy, ← current_eq hy]
    rfl
  | part hz _ ih =>
    obtain ⟨before, after, hparts⟩ := List.append_of_mem hz
    rw [Stop.locatedAll_append]
    exact (stops_of_part hparts (ih hy)).2

theorem Leads.fails {x y : Evaluation} {calls : List Token} (h : x.Leads calls y) {f : Failure}
    (hy : y.Raises f) : x.outcome = (.error (.failure (f.locatedAll calls)),
      { y.outcome.2 with current := x.machine.current }) := by
  rw [← Stop.locatedAll_failure]
  exact h.stops (Prod.ext hy.1 rfl)

theorem Raises.not_fails {x y : Evaluation} {f g : Failure} (h : x.Raises f) (hy : y ∈ x.parts)
    {s : Machine} : y.outcome ≠ (.error (.failure g), s) :=
  fun hg => h.2 y hy g (congrArg Prod.fst hg)

/-- If an evaluation raises a failure, its parts have all ended with a result. -/
theorem Raises.ne_error {x y : Evaluation} {f : Failure} (h : x.Raises f) (hy : y ∈ x.parts)
    (stop : Stop) : y.outcome.1 ≠ .error stop := by
  intro hstop
  obtain ⟨before, after, hparts⟩ := List.append_of_mem hy
  obtain ⟨-, hx⟩ := stops_of_part hparts (s := y.outcome.2) (Prod.ext hstop rfl)
  have hfailed := (congrArg Prod.fst hx).symm.trans h.1
  obtain ⟨g, rfl⟩ := Stop.eq_failure_of_locatedAll (Except.error.inj hfailed)
  exact h.2 y hy g hstop

theorem Raises.mayRaise {x : Evaluation} {f : Failure} (h : x.Raises f) : x.job.MayRaise f :=
  x.follows.raises (fun _ hy stop => h.ne_error hy stop) f x.outcome.2 (Prod.ext h.1 rfl)

/-- What is raised is raised at a place of the job itself. -/
theorem Raises.token_mem {x : Evaluation} {f : Failure} (h : x.Raises f) :
    f.token ∈ x.job.places :=
  h.mayRaise.1

theorem exists_raises (x : Evaluation) {f : Failure} (h : x.outcome.1 = .error (.failure f)) :
    ∃ calls y g, x.Leads calls y ∧ y.Raises g := by
  induction x using parts_induction generalizing f with
  | step x ih =>
    by_cases hpart : ∃ y ∈ x.parts, ∃ g, y.outcome.1 = .error (.failure g)
    · obtain ⟨y, hy, g, hg⟩ := hpart
      obtain ⟨calls, z, g', hlead, hraise⟩ := ih y hy hg
      exact ⟨_, z, g', .part hy hlead, hraise⟩
    · exact ⟨[], x, f, .here x, h, fun y hy g hg => hpart ⟨y, hy, g, hg⟩⟩

/-- No second failure is raised. -/
theorem Leads.raises_unique {x y z : Evaluation} {calls calls' : List Token} {f g : Failure}
    (hy : x.Leads calls y) (hf : y.Raises f) (hz : x.Leads calls' z) (hg : z.Raises g) : z = y := by
  induction hy generalizing calls' with
  | here x =>
    cases hz with
    | here => rfl
    | part hw hz => exact absurd (hz.fails hg) (hf.not_fails hw)
  | part hv hy ih =>
    cases hz with
    | here => exact absurd (hy.fails hf) (hg.not_fails hv)
    | part hw hz =>
      -- both ways go through a part that fails, and there is only one
      obtain rfl := eq_of_stopped hv hw (hy.fails hf) (hz.fails hg)
      exact ih hf hz

end Evaluation

theorem Machine.interpret_of_failure {fuel : Nat} {p : Program} {m s : Machine} {f : Failure}
    (h : Evaluation.outcome ⟨fuel, .program p, m⟩ = (.error (.failure f), s)) :
    ∃ record, m.interpret fuel p = (.aborted (f.abort s.store),
      { s with current := s.globals, events := s.events.push (.logged record) }) := by
  have hrun : (Program.run fuel p).run m = (.error (.failure f), s) := h
  rw [Machine.interpret, hrun]
  exact ⟨_, rfl⟩

theorem Machine.aborted_iff {fuel : Nat} {p : Program} {m : Machine} :
    (∃ a, (m.interpret fuel p).1 = .aborted a) ↔
      ∃ f, (Evaluation.outcome ⟨fuel, .program p, m⟩).1 = .error (.failure f) := by
  constructor
  · rintro ⟨a, ha⟩
    rw [Machine.interpret] at ha
    change ∃ f, ((Program.run fuel p).run m).1 = .error (.failure f)
    split at ha
    · cases ha
    · next f s hrun => exact ⟨f, congrArg Prod.fst hrun⟩
    · cases ha
    · cases ha
  · rintro ⟨f, hf⟩
    obtain ⟨record, hrun⟩ := interpret_of_failure (Prod.ext hf rfl)
    exact ⟨_, congrArg Prod.fst hrun⟩

/-- Failures are strict and final. The first part of an evaluation to fail is its last, and the
evaluation fails alike, on the machine the part left. So a run of a program is aborted exactly if an
evaluation in it raises a failure, at a place of its own; there is only one such evaluation, and the
run ends with its failure and on its machine. -/
theorem Evaluation.failures_strict_and_final :
    (∀ (x y : Evaluation) (before after : List Evaluation) (f : Failure) (s : Machine),
      x.parts = before ++ y :: after → y.outcome = (.error (.failure f), s) →
        after = [] ∧ x.outcome = (.error (.failure (f.locatedAll (x.job.calls y.job))),
          { s with current := x.machine.current })) ∧
    (∀ (x : Evaluation) (f : Failure), x.Raises f → f.token ∈ x.job.places) ∧
    ∀ (fuel : Nat) (p : Program) (m : Machine),
      ((∃ a, (m.interpret fuel p).1 = .aborted a) ↔
        ∃ calls y f, Evaluation.Leads ⟨fuel, .program p, m⟩ calls y ∧ y.Raises f) ∧
      ∀ calls y f s, Evaluation.Leads ⟨fuel, .program p, m⟩ calls y → y.Raises f → y.outcome.2 = s →
        (∃ record, m.interpret fuel p = (.aborted ((f.locatedAll calls).abort s.store),
          { s with current := s.globals, events := s.events.push (.logged record) })) ∧
        ∀ calls' z g, Evaluation.Leads ⟨fuel, .program p, m⟩ calls' z → z.Raises g → z = y := by
  refine ⟨fun x y before after f s hparts hf => ?_, fun x f h => h.token_mem,
    fun fuel p m => ⟨?_, ?_⟩⟩
  · rw [← Stop.locatedAll_failure]
    exact stops_of_part hparts hf
  · rw [Machine.aborted_iff]
    constructor
    · rintro ⟨f, hf⟩
      exact exists_raises _ hf
    · rintro ⟨calls, y, f, hlead, hraise⟩
      exact ⟨_, congrArg Prod.fst (hlead.fails hraise)⟩
  · rintro calls y f s hlead hraise rfl
    refine ⟨?_, fun calls' z g hlead' hraise' => hlead.raises_unique hraise hlead' hraise'⟩
    obtain ⟨record, hrun⟩ := Machine.interpret_of_failure (hlead.fails hraise)
    exact ⟨record, hrun⟩

/-- Two texts are printed, and between them `abs` is called on one. -/
def absOfText : Program :=
  [.print .blank (.literal .blank (.text "a")),
    .print .blank (.call (.variable ⟨.identifier, "abs", 2, .null⟩ none)
      ⟨.mark .close, ")", 2, .null⟩ [.literal .blank (.text "x")]),
    .print .blank (.literal .blank (.text "b"))]

theorem absOfText_aborted :
    ∃ record, (Machine.start ⟨fun _ => 0, 0⟩ (Module.natives [.abs])).interpret 9 absOfText =
      (.aborted ⟨⟨.mark .close, ")", 2, .null⟩, "abs expects a number, got STRING", none⟩,
        { Machine.start ⟨fun _ => 0, 0⟩ (Module.natives [.abs]) with
          events := #[.printed "a", .logged record] }) := by
  let m := Machine.start ⟨fun _ => 0, 0⟩ (Module.natives [.abs])
  let printed : Machine := { m with events := #[.printed "a"] }
  let paren : Token := ⟨.mark .close, ")", 2, .null⟩
  let call : Expr := .call (.variable ⟨.identifier, "abs", 2, .null⟩ none) paren
    [.literal .blank (.text "x")]
  let raising : Evaluation := ⟨7, .invocation (.native .abs) [.text "x"], printed⟩
  have hraise : raising.Raises ⟨.blank, .nativeNumber "abs" .text, none⟩ := ⟨rfl, nofun⟩
  have hcall : Evaluation.Leads ⟨8, .expr call, printed⟩ [paren] raising :=
    .part (y := raising) (.tail _ (.tail _ (.head _))) (.here raising)
  have hlead : Evaluation.Leads ⟨9, .program absOfText, m⟩ [paren] raising :=
    .part (y := ⟨9, .program absOfText.tail, printed⟩) (.tail _ (.head _)) <|
      .part (y := ⟨9, .stmt (.print .blank call), printed⟩) (.head _) <|
        .part (y := ⟨8, .expr call, printed⟩) (.head _) hcall
  obtain ⟨record, hrun⟩ :=
    ((Evaluation.failures_strict_and_final.2.2 9 absOfText m).2 _ _ _ _ hlead hraise rfl).1
  exact ⟨record, hrun⟩

end Treescript
