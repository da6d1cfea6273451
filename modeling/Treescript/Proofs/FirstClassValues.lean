import Treescript.Proofs.Answers
import Treescript.Proofs.ReachedMachines

/-!
# Only first-class values are data

Values, failures and returned values come back through one channel, yet the latter two never get
anywhere else. Whatever a scope, a holder or a form keeps, and whatever a failure carries along, is
of one of the kinds that programs can tell apart and refers to something that is there.
-/

namespace Treescript

/-- The kinds that values of a program have. -/
def Kind.firstClass : List Kind :=
  [.integer, .float, .text, .boolean, .none, .operation, .native, .objectType, .objectInstance,
    .enumType, .sample, .formType, .taste]

structure Value.FirstClass (s : Store) (v : Value) : Prop where
  kind_mem : v.kind ∈ Kind.firstClass
  live : v.Live s

theorem Value.Live.firstClass {s : Store} {v : Value} (h : v.Live s) : v.FirstClass s := by
  refine ⟨?_, h⟩
  cases v with
  | type t => cases t <;> simp [Value.kind, TypeRef.kind, Kind.firstClass]
  | holder t id => cases t <;> simp [Value.kind, TypeRef.holderKind, Kind.firstClass]
  | _ => simp [Value.kind, Kind.firstClass]

/-- The arguments that a failure carries along are first-class. -/
def Failure.Clean (s : Store) (f : Failure) : Prop :=
  ∀ args, f.args = some args → ∀ v ∈ args, v.FirstClass s

/-- What an expression may answer: a value or a failure. -/
def Answer.OfExpr (s : Store) : Answer → Prop
  | .value v => v.FirstClass s
  | .failed f => f.Clean s
  | .nothing | .returned _ => False

/-- What a statement may answer: nothing, a returned value or a failure. -/
def Answer.OfStmt (s : Store) : Answer → Prop
  | .nothing => True
  | .returned v => v.FirstClass s
  | .failed f => f.Clean s
  | .value _ => False

theorem Stop.Sound.clean {s : Store} {f : Failure} (h : (Stop.failure f).Sound True s) :
    f.Clean s :=
  fun args hargs v hv => (h.2 args hargs v hv).firstClass

/-- A run that ends well is answered in the same way and on the same machine. -/
theorem Run.Answers.of_ends {α β : Type} {result : α → β} {failed : Failure → β} {run : Run α}
    {run' : Run β} (h : Run.Answers result failed run run') {m m' : Machine}
    {Q : α → Store → Prop} (hends : Run.Ends True run m Q) {r : Except Stop β}
    (hrun : run'.run m = (r, m')) :
    m' = (run.run m).2 ∧ (r = .error .outOfFuel ∨ (∃ a, r = .ok (result a) ∧ Q a m'.store) ∨
      ∃ f, r = .ok (failed f) ∧ f.Clean m'.store) := by
  obtain ⟨-, hsettled⟩ := hends
  rw [h m] at hrun
  rcases hend : run.run m with ⟨(f | _ | _) | a, m₁⟩
  · rw [hend] at hrun hsettled
    obtain ⟨rfl, rfl⟩ := Prod.mk.inj hrun
    exact ⟨rfl, .inr (.inr ⟨f, rfl, Stop.Sound.clean hsettled⟩)⟩
  · rw [hend] at hrun
    obtain ⟨rfl, rfl⟩ := Prod.mk.inj hrun
    exact ⟨rfl, .inl rfl⟩
  · -- strictly, no run ends with a fault
    rw [hend] at hsettled
    exact absurd trivial hsettled
  · rw [hend] at hrun hsettled
    obtain ⟨rfl, rfl⟩ := Prod.mk.inj hrun
    exact ⟨rfl, .inr (.inl ⟨a, rfl, hsettled⟩)⟩

namespace Evaluation

/-- How the expression or statement of an evaluation is answered: on the machine that the evaluation
leaves, and with what an expression or statement may answer. -/
def AnswersWell (x : Evaluation) (run : Run Answer) (allowed : Store → Answer → Prop) : Prop :=
  ∀ r m, run.run x.machine = (r, m) →
    m = x.outcome.2 ∧ (r = .error .outOfFuel ∨ ∃ a, r = .ok a ∧ allowed m.store a)

variable {x : Evaluation}

theorem Sound.answersExpr (h : x.Sound True) {e : Expr} (he : x.job = .expr e) :
    x.AnswersWell (e.answer x.fuel) Answer.OfExpr := by
  obtain ⟨fuel, t, m⟩ := x
  obtain rfl : t = .expr e := he
  intro r m' hrun
  obtain ⟨hm, hr⟩ := (e.answers fuel).of_ends h.ends hrun
  refine ⟨hm, ?_⟩
  rcases hr with rfl | ⟨v, rfl, hv⟩ | ⟨f, rfl, hf⟩
  · exact .inl rfl
  · exact .inr ⟨_, rfl, Value.Live.firstClass hv⟩
  · exact .inr ⟨_, rfl, hf⟩

theorem Sound.answersStmt (h : x.Sound True) {s : Stmt} (hs : x.job = .stmt s) :
    x.AnswersWell (s.answer x.fuel) Answer.OfStmt := by
  obtain ⟨fuel, t, m⟩ := x
  obtain rfl : t = .stmt s := hs
  intro r m' hrun
  obtain ⟨hm, hr⟩ := (s.answers fuel).of_ends h.ends hrun
  refine ⟨hm, ?_⟩
  rcases hr with rfl | ⟨completion, rfl, hc⟩ | ⟨f, rfl, hf⟩
  · exact .inl rfl
  · cases completion with
    | normal => exact .inr ⟨.nothing, rfl, trivial⟩
    | returned v => exact .inr ⟨.returned v, rfl, Value.Live.firstClass hc⟩
  · exact .inr ⟨_, rfl, hf⟩

theorem Sound.contains (h : x.Sound True) {v : Value} (hv : x.machine.store.Contains v) :
    v.FirstClass x.machine.store :=
  (h.machine.store.values v hv).firstClass

theorem Sound.contains_after (h : x.Sound True) {v : Value} (hv : x.outcome.2.store.Contains v) :
    v.FirstClass x.outcome.2.store :=
  (h.ends.1.sound.store.values v hv).firstClass

theorem Sound.clean (h : x.Sound True) {f : Failure} (hf : x.outcome.1 = .error (.failure f)) :
    f.Clean x.outcome.2.store := by
  have hsettled : Settled True (x.job.Holds True) x.outcome.2.store x.outcome.1 := h.ends.2
  rw [hf] at hsettled
  exact Stop.Sound.clean hsettled

end Evaluation

/-- Control signals never become data, in no evaluation of any session of decoded programs. Where
all answers come through one channel, evaluation does the same and never takes a signal for data. -/
theorem Machine.Reached.signals_never_data {m : Machine} (hm : m.Reached Program.Decoded)
    {p q : Program} (hp : p.Decoded) (hq : q.unnumbered = p.unnumbered) (fuel : Nat) :
    Run.Answers (fun _ => Answer.nothing) Answer.failed (q.run fuel) (q.answer fuel) ∧
    ∀ calls x, Evaluation.Leads ⟨fuel, .program q, m⟩ calls x →
      (∀ v, x.machine.store.Contains v → v.FirstClass x.machine.store) ∧
      (∀ v, x.outcome.2.store.Contains v → v.FirstClass x.outcome.2.store) ∧
      (∀ f, x.outcome.1 = .error (.failure f) → f.Clean x.outcome.2.store) ∧
      (∀ e, x.job = .expr e →
        Run.Answers Answer.value Answer.failed (e.eval x.fuel) (e.answer x.fuel) ∧
        x.AnswersWell (e.answer x.fuel) Answer.OfExpr) ∧
      ∀ s, x.job = .stmt s →
        Run.Answers Completion.answer Answer.failed (s.exec x.fuel) (s.answer x.fuel) ∧
        x.AnswersWell (s.answer x.fuel) Answer.OfStmt := by
  refine ⟨q.answers fuel, fun calls x hx => ?_⟩
  have hsound := hm.sound_evaluation hp hq hx
  refine ⟨fun v => hsound.contains, fun v => hsound.contains_after, fun f => hsound.clean, ?_, ?_⟩
  · exact fun e he => ⟨e.answers x.fuel, hsound.answersExpr he⟩
  · exact fun s hs => ⟨s.answers x.fuel, hsound.answersStmt hs⟩

/-- An operation that returns itself, called with an argument that it does not take. -/
def refusedDocument : List Document :=
  [.mapping [("type", .text "Op"), ("name", .text "f"), ("body", .list [
      .mapping [("type", .text "Return"),
        ("value", .mapping [("type", .text "Variable"), ("name", .text "f")])]])],
    .mapping [("type", .text "Expression"), ("expression", .mapping [("type", .text "Call"),
      ("callee", .mapping [("type", .text "Variable"), ("name", .text "f")]),
      ("args", .list [.mapping [("type", .text "Variable"), ("name", .text "f")]])])]]

def refusedOperation : Operation :=
  ⟨⟨.keyword .operation, "op", 1, .null⟩, ⟨.identifier, "f", 1, .null⟩, [],
    [.return ⟨.keyword .return, "return", 1, .null⟩
      (some (.variable ⟨.identifier, "f", 1, .null⟩ none))]⟩

def refusedCall : Expr :=
  .call (.variable ⟨.identifier, "f", 1, .null⟩ none) ⟨.mark .close, ")", 1, .null⟩
    [.variable ⟨.identifier, "f", 1, .null⟩ none]

def refused : Program :=
  [.operation refusedOperation, .expression ⟨.identifier, ")", 1, .null⟩ refusedCall]

theorem refused_decoded : Document.program refusedDocument = .ok refused := by
  with_unfolding_all rfl

theorem refused_clean :
    let m := Machine.start ⟨fun _ => 0, 0⟩ ([Module.text].flatMap Module.entries)
    ∃ calls m' f, Evaluation.Leads ⟨9, .program refused, m⟩ calls ⟨8, .expr refusedCall, m'⟩ ∧
      Evaluation.outcome ⟨8, .expr refusedCall, m'⟩ = (.error (.failure f), m') ∧
      f.args = some [.operation 0] ∧ f.Clean m'.store := by
  intro m
  have hm : m.Reached Program.Decoded := .start ⟨fun _ => 0, 0⟩ [.text]
  obtain ⟨-, hall⟩ := hm.signals_never_data ⟨_, refused_decoded⟩ rfl 9
  let declared : Machine := (((Stmt.operation refusedOperation).exec 9).run m).2
  let call : Evaluation := ⟨8, .expr refusedCall, declared⟩
  let f : Failure := ⟨⟨.mark .close, ")", 1, .null⟩, .arity 0 1, some [.operation 0]⟩
  have hlead : Evaluation.Leads ⟨9, .program refused, m⟩ [] call :=
    .part (y := ⟨9, .program refused.tail, declared⟩) (.tail _ (.head _)) <|
      .part (y := ⟨9, .stmt (.expression ⟨.identifier, ")", 1, .null⟩ refusedCall), declared⟩)
        (.head _) (.part (.head _) (.here call))
  have hfailed : call.outcome = (.error (.failure f), declared) := Prod.ext rfl rfl
  obtain ⟨-, -, hclean, -, -⟩ := hall _ call hlead
  have hargs := hclean f (congrArg Prod.fst hfailed)
  rw [hfailed] at hargs
  exact ⟨_, declared, f, hlead, hfailed, rfl, hargs⟩

end Treescript
