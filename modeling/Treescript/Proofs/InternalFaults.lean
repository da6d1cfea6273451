import Treescript.Proofs.ReachedMachines

/-!
# Internal faults are out of reach

Trees built by hand may bring evaluation upon holes, operators without a meaning and arms that stand
alone. Decoded programs never do, whatever has been run before and however their names are numbered.
-/

namespace Treescript

namespace EnumType

variable {t : EnumType}

theorem isSome_elementName?_iff (n : Int) :
    (t.elementName? n).isSome ↔ 0 ≤ n ∧ n < t.elements.length := by
  rw [elementName?]
  split
  · simp
    omega
  · simp
    omega

theorem getElem?_of_ordinal? {word : String} {k : Nat} (h : t.ordinal? word = some k) :
    t.elements[k]? = some word := by
  obtain ⟨i, hi, rfl⟩ := Option.map_eq_some_iff.1 h
  obtain ⟨hlt, heq, -⟩ := List.findIdx?_eq_some_iff_getElem.1 hi
  have hword := beq_iff_eq.1 heq
  rw [List.length_reverse] at hlt
  rw [List.getElem_reverse] at hword
  rw [← hword]
  exact List.getElem?_eq_getElem _

end EnumType

theorem Run.Ends.not_fault {α : Type} {run : Run α} {m : Machine} {Q : α → Store → Prop}
    (h : Run.Ends True run m Q) : (run.run m).1 ≠ .error .fault := by
  intro hfault
  have hsettled := h.2
  rw [hfault] at hsettled
  exact hsettled trivial

theorem Run.Ends.ordinary {α : Type} {run : Run α} {m : Machine} {Q : α → Store → Prop}
    (h : Run.Ends True run m Q) {f : Failure} (hf : (run.run m).1 = .error (.failure f)) :
    f.cause.Ordinary := by
  have hsettled := h.2
  rw [hf] at hsettled
  exact hsettled.1 trivial

theorem Machine.interpret_ne_fault {m : Machine} {fuel : Nat} {p : Program}
    (h : ((p.run fuel).run m).1 ≠ .error .fault) : (m.interpret fuel p).1 ≠ .fault := by
  intro hfault
  rw [Machine.interpret] at hfault
  split at hfault
  · cases hfault
  · cases hfault
  · cases hfault
  · next hrun => exact h (congrArg Prod.fst hrun)

theorem Machine.Reached.internal_faults_unreachable {m : Machine} (hm : m.Reached Program.Decoded)
    {p q : Program} (hp : p.Decoded) (hq : q.unnumbered = p.unnumbered) (fuel : Nat) :
    (m.interpret fuel q).1 ≠ .fault ∧
    ∀ calls x, Evaluation.Leads ⟨fuel, .program q, m⟩ calls x →
      x.outcome.1 ≠ .error .fault ∧
      (∀ f, x.outcome.1 = .error (.failure f) →
        ∀ word ∈ Cause.internalWords, ¬Opens word f.cause.message) ∧
      (∀ e, x.job = .expr e → e ≠ .hole) ∧
      (∀ s, x.job = .stmt s → s ≠ .hole) ∧
      (∀ closure args, x.job = .application closure args →
        args.length = closure.declaration.params.length) ∧
      (∀ n args, x.job = .invocation (.native n) args → args.length = n.arity ∧
        ∀ time, (n.apply x.machine.store time (args.map .value)).isSome) ∧
      ∀ (id : Nat) (t : EnumType), x.machine.store.enums[id]? = some t →
        (∀ n, (t.elementName? n).isSome ↔ 0 ≤ n ∧ n < t.elements.length) ∧
        ∀ word k, t.ordinal? word = some k → t.elements[k]? = some word := by
  have hsound : ∀ calls x, Evaluation.Leads ⟨fuel, .program q, m⟩ calls x → x.Sound True :=
    fun _ _ hx => hm.sound_evaluation hp hq hx
  refine ⟨Machine.interpret_ne_fault (hsound _ _ (.here _)).ends.not_fault, fun calls x hx => ?_⟩
  obtain ⟨-, hjob⟩ := hsound calls x hx
  refine ⟨(hsound calls x hx).ends.not_fault, fun f hf word hword => ?_, ?_, ?_, ?_, ?_, ?_⟩
  · exact ((hsound calls x hx).ends.ordinary hf).not_opens hword
  · rintro e he rfl
    rw [he] at hjob
    exact hjob trivial
  · rintro s hs rfl
    rw [hs] at hjob
    exact hjob trivial
  · intro closure args happlication
    rw [happlication] at hjob
    exact hjob.2.2
  · intro n args hnative
    rw [hnative] at hjob
    have hlength : args.length = n.arity := (Option.some.inj hjob.2.2).symm
    refine ⟨hlength, fun time => Native.isSome_apply _ time ?_⟩
    rw [List.length_map, hlength]
  · exact fun id t _ => ⟨t.isSome_elementName?_iff, fun word k hk => t.getElem?_of_ordinal? hk⟩

/-- An object type with a pilot, and a call of the type. -/
def pilotDocument : List Document :=
  [.mapping [("type", .text "Obj"), ("name", .text "O"), ("methods", .list [
      .mapping [("name", .text "pilot"), ("params", .list [.text "x"])]])],
    .mapping [("type", .text "Expression"), ("expression", .mapping [("type", .text "Call"),
      ("callee", .mapping [("type", .text "Variable"), ("name", .text "O")]),
      ("args", .list [.mapping [("type", .text "Literal"), ("value", .text "a")]])])]]

def pilotOperation : Operation :=
  ⟨⟨.keyword .operation, "op", 1, .null⟩, ⟨.identifier, "pilot", 1, .null⟩,
    [⟨.identifier, "x", 1, .null⟩], []⟩

def pilotType : Stmt :=
  .object ⟨.keyword .object, "obj", 1, .null⟩ ⟨.identifier, "O", 1, .null⟩ [pilotOperation]

def pilotCall : Expr :=
  .call (.variable ⟨.identifier, "O", 1, .null⟩ none) ⟨.mark .close, ")", 1, .null⟩
    [.literal ⟨.text, "a", 1, .text "a"⟩ (.text "a")]

def pilotCalled : Program := [pilotType, .expression ⟨.identifier, ")", 1, .null⟩ pilotCall]

theorem pilotCalled_decoded : Document.program pilotDocument = .ok pilotCalled := by
  with_unfolding_all rfl

theorem pilotCalled_bound :
    let m := Machine.start ⟨fun _ => 0, 0⟩ ([Module.text].flatMap Module.entries)
    (m.interpret 9 pilotCalled).1 ≠ .fault ∧
    ∃ calls m', Evaluation.Leads ⟨9, .program pilotCalled, m⟩ calls
        ⟨6, .application ⟨pilotOperation, 1, true⟩ [.text "a"], m'⟩ ∧
      [Value.text "a"].length = pilotOperation.params.length := by
  intro m
  have hm : m.Reached Program.Decoded := .start ⟨fun _ => 0, 0⟩ [.text]
  obtain ⟨hfault, hall⟩ := hm.internal_faults_unreachable ⟨_, pilotCalled_decoded⟩ rfl 9
  let declared : Machine := ((pilotType.exec 9).run m).2
  let bound := declared.addHolder.bindSelf ⟨pilotOperation, 0, true⟩ (.holder (.object 0) 0)
  have hcall : Evaluation.Leads ⟨8, .expr pilotCall, declared⟩ [⟨.mark .close, ")", 1, .null⟩]
      ⟨6, .application ⟨pilotOperation, 1, true⟩ [.text "a"], bound⟩ :=
    .part (y := ⟨7, .invocation (.type (.object 0)) [.text "a"], declared⟩)
      (.tail _ (.tail _ (.head _))) (.part (.head _) (.here _))
  have hlead : Evaluation.Leads ⟨9, .program pilotCalled, m⟩ [⟨.mark .close, ")", 1, .null⟩]
      ⟨6, .application ⟨pilotOperation, 1, true⟩ [.text "a"], bound⟩ :=
    .part (y := ⟨9, .program pilotCalled.tail, declared⟩) (.tail _ (.head _)) <|
      .part (y := ⟨9, .stmt (.expression ⟨.identifier, ")", 1, .null⟩ pilotCall), declared⟩)
        (.head _) (.part (y := ⟨8, .expr pilotCall, declared⟩) (.head _) hcall)
  obtain ⟨-, -, -, -, hargs, -, -⟩ := hall _ _ hlead
  exact ⟨hfault, _, bound, hlead, hargs _ _ rfl⟩

end Treescript
