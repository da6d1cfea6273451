import Treescript.Proofs.Chronicles

/-!
# Chronicled runs

A chronicle tells how one store comes to be another: at each entry on the way the store is a later
one, and recorded by what came before the entry. Here this is said of the steps that a machine can
take.
-/

namespace Treescript

/-- The defaults of members are evaluated in order, each once, and each member is bound before the
next default. The chronicle is that of the members. -/
inductive Definition.Evaluated : Evaluation → List Value → Chronicle → Prop
  | nil (fuel : Nat) (before : NameMap Value) (m : Machine) :
    Evaluated ⟨fuel + 1, .members [] before, m⟩ []
      [.begun ⟨fuel + 1, .members [] before, m⟩, .ended ⟨fuel + 1, .members [] before, m⟩]
  | cons {fuel : Nat} {d : Definition} {rest : List Definition} {before : NameMap Value}
    {m m' : Machine} {v : Value} {vs : List Value} {later : Chronicle}
    (hd : Evaluation.outcome ⟨fuel, .optional d.initial, m⟩ = (.ok v, m'))
    (hrest : Evaluated ⟨fuel, .members rest (before.insert d.name.text v),
      m'.define d.name.text v⟩ vs later) :
    Evaluated ⟨fuel + 1, .members (d :: rest) before, m⟩ (v :: vs)
      (.begun ⟨fuel + 1, .members (d :: rest) before, m⟩ ::
        (Evaluation.chronicle ⟨fuel, .optional d.initial, m⟩ ++ later ++
          [.ended ⟨fuel + 1, .members (d :: rest) before, m⟩]))

/-- The chronicle ends with the declaration of a form: its defaults have just been evaluated, and
its members are their values. -/
def FormType.DeclaredBy (past : Chronicle) (type : FormType) : Prop :=
  ∃ before fuel token name ds m vs later,
    past = before ++ .begun ⟨fuel + 1, .stmt (.form token name ds), m⟩ :: later ∧
    Definition.Evaluated ⟨fuel, .members ds .empty, m.define name.text .none⟩ vs later ∧
    type = ⟨name.text, .ofList ((ds.map (·.name.text)).zip vs)⟩

/-- The entry is in keeping with what came before it. -/
structure Entry.Fits (past : Chronicle) (k : Entry) : Prop where
  recorded : ∀ m, k.machine? = some m → m.store.Recorded past
  atHand : ∀ v, k.AtHand v → v.MadeIn past
  declared : ∀ type, k = .declared type → type.DeclaredBy past

/-- Each entry fits, and the stores at the entries follow each other from the first to the last. -/
inductive Chronicle.Tells : Chronicle → Chronicle → Store → Store → Prop
  | done {past : Chronicle} {s s' : Store} (h : s.Becomes past s') : Tells past [] s s'
  | entry {past later : Chronicle} {k : Entry} {s s₁ s' : Store} (hk : k.Fits past)
    (hs : s.Endures s₁) (hm : ∀ m, k.machine? = some m → m.store = s₁)
    (h : Tells (past ++ [k]) later s₁ s') : Tells past (k :: later) s s'

namespace Chronicle.Tells

variable {past later after : Chronicle} {s s₁ s' : Store}

theorem of_endures (he : s.Endures s₁) (h : Tells past later s₁ s') : Tells past later s s' := by
  cases h with
  | done h => exact .done (.trans he h)
  | entry hk hs hm h => exact .entry hk (he.trans hs) hm h

theorem append (h : Tells past later s s₁) (h' : Tells (past ++ later) after s₁ s') :
    Tells past (later ++ after) s s' := by
  induction h with
  | done h =>
    rw [List.append_nil] at h'
    exact of_endures h.endures h'
  | entry hk hs hm _ ih =>
    refine .entry hk hs hm (ih ?_)
    rwa [List.append_cons] at h'

theorem recorded (h : Tells past later s s') : s'.Recorded (past ++ later) := by
  induction h with
  | done h =>
    rw [List.append_nil]
    exact h.recorded
  | entry _ _ _ _ ih => rwa [List.append_cons]

theorem fits (h : Tells past later s s') {before : Chronicle} {k : Entry}
    (hlater : later = before ++ k :: after) : k.Fits (past ++ before) := by
  induction h generalizing before with
  | done => cases List.append_eq_nil_iff.1 hlater.symm |>.2
  | entry hk _ _ _ ih =>
    cases before with
    | nil =>
      cases hlater
      rwa [List.append_nil]
    | cons k' before =>
      cases hlater
      rw [List.append_cons]
      exact ih rfl

/-- The machines at the entries follow each other. -/
theorem pairwise (h : Tells past later s s') :
    (∀ m ∈ later.filterMap Entry.machine?, s.Endures m.store) ∧
      (later.filterMap Entry.machine?).Pairwise fun m m' => m.store.Endures m'.store := by
  induction h with
  | done => exact ⟨List.forall_mem_nil _, .nil⟩
  | @entry past later k s s₁ s' _ hs hm _ ih =>
    obtain ⟨hall, hpairs⟩ := ih
    rw [List.filterMap_cons]
    cases hk : k.machine? with
    | none => exact ⟨fun m hm => hs.trans (hall m hm), hpairs⟩
    | some m =>
      obtain rfl := hm m hk
      exact ⟨List.forall_mem_cons.2 ⟨hs, fun m hm => hs.trans (hall m hm)⟩,
        .cons hall hpairs⟩

/-- One entry that tells of a change of the store. -/
theorem change {k : Entry} (hmachine : k.machine? = none) (hhand : ∀ v, ¬k.AtHand v)
    (hdeclared : ∀ type, k = .declared type → type.DeclaredBy past)
    (h : s.Becomes (past ++ [k]) s') : Tells past [k] s s' :=
  have hm : ∀ m, k.machine? ≠ some m := by simp [hmachine]
  .entry ⟨fun m h => absurd h (hm m), fun v h => absurd h (hhand v), hdeclared⟩ (.refl s)
    (fun m h => absurd h (hm m)) (.done h)

end Chronicle.Tells

/-- The run makes no entries, and its results have a property. -/
def Run.Leaves {α : Type} (run : Run α) (m : Machine) (past : Chronicle) (Q : α → Prop) : Prop :=
  m.store.Becomes past (run.run m).2.store ∧ ∀ a, (run.run m).1 = .ok a → Q a

namespace Run.Leaves

variable {α β : Type} {run : Run α} {m m' : Machine} {past : Chronicle} {Q R : α → Prop}
  {S : β → Prop}

theorem pure {a : α} (hm : m.store.Recorded past) (h : Q a) :
    Run.Leaves (Pure.pure a) m past Q := by
  refine ⟨.refl hm, ?_⟩
  rintro _ ⟨⟩
  exact h

theorem throw {stop : Stop} (hm : m.store.Recorded past) :
    Run.Leaves (MonadExcept.throw stop) m past Q :=
  ⟨.refl hm, nofun⟩

theorem of_reads (hm : m.store.Recorded past) (h : run.Reads m)
    (hq : ∀ a, (run.run m).1 = .ok a → Q a) : Run.Leaves run m past Q := by
  refine ⟨?_, hq⟩
  rw [Run.Reads] at h
  rw [h]
  exact .refl hm

theorem bind {k : α → Run β} (h : Run.Leaves run m past Q)
    (hk : ∀ a m', m'.store.Recorded past → Q a → Run.Leaves (k a) m' past S) :
    Run.Leaves (run >>= k) m past S := by
  obtain ⟨hb, hq⟩ := h
  rw [Run.Leaves, run_bind_eq]
  generalize run.run m = end_ at hb hq
  obtain ⟨stop | a, m'⟩ := end_
  · exact ⟨hb, nofun⟩
  · obtain ⟨hb', hs⟩ := hk a m' hb.recorded (hq a rfl)
    exact ⟨.trans hb.endures hb', hs⟩

theorem found {a? : Option α} {k : α → Run β} (hm : m.store.Recorded past)
    (hk : ∀ a, a? = some a → Run.Leaves (k a) m past S) :
    Run.Leaves (Run.found a? >>= k) m past S := by
  cases a? with
  | none => exact throw hm
  | some a => exact hk a rfl

theorem store {k : Store → Run β} (h : Run.Leaves (k m.store) m past S) :
    Run.Leaves (Run.store >>= k) m past S := h

theorem get {k : Machine → Run β} (h : Run.Leaves (k m) m past S) :
    Run.Leaves (MonadState.get >>= k) m past S := h

theorem onStore {f : Store → Store × α} (h : m.store.Becomes past (f m.store).1)
    (hq : Q (f m.store).2) : Run.Leaves (Run.onStore f) m past Q := by
  refine ⟨h, ?_⟩
  rintro _ ⟨⟩
  exact hq

theorem define (hm : m.store.Recorded past) (x : String) {v : Value} (hv : v.MadeIn past) :
    Run.Leaves (Run.define x v) m past fun _ => True :=
  ⟨.define hm m.current x hv, fun _ _ => trivial⟩

theorem emit (hm : m.store.Recorded past) (e : Event) :
    Run.Leaves (Run.emit e) m past fun _ => True :=
  ⟨.refl hm, fun _ _ => trivial⟩

theorem lookup (hm : m.store.Recorded past) (token : Token) (x : String) (hops : Option Nat) :
    Run.Leaves (Run.lookup token x hops) m past (Value.MadeIn past) := by
  refine of_reads hm (.lookup token x hops) fun v hv => ?_
  rw [Run.lookup_run] at hv
  cases hw : (m.target? hops).bind (m.store.scopes.get? · x) with
  | none =>
    rw [hw] at hv
    cases hv
  | some w =>
    rw [hw] at hv
    cases hv
    obtain ⟨i, -, hi⟩ := Option.bind_eq_some_iff.1 hw
    exact hm.values v (.binding i x hi)

theorem assign (hm : m.store.Recorded past) (name : Token) (hops : Option Nat) {v : Value}
    (hv : v.MadeIn past) : Run.Leaves (Run.assign name hops v) m past (Value.MadeIn past) := by
  rw [Run.Leaves, Run.assign_run]
  cases (m.target? hops).filter fun i => (m.store.scopes.get? i name.text).isSome with
  | none => exact ⟨.refl hm, nofun⟩
  | some i =>
    refine ⟨.define hm i name.text hv, ?_⟩
    rintro _ ⟨⟩
    exact hv

theorem operator (hm : m.store.Recorded past) (token : Token) {result : Except Cause Value}
    (hok : ∀ v, result = .ok v → v.IsConstant) :
    Run.Leaves (Run.operator token result) m past (Value.MadeIn past) := by
  cases result with
  | ok v => exact pure hm ((hok v rfl).madeIn past)
  | error cause => exact throw hm

theorem getProperty (hm : m.store.Recorded past) {of : TypeRef} {id : Nat}
    (h : (Value.holder of id).MadeIn past) (name : Token) :
    Run.Leaves (Run.getProperty of id name) m past (Value.MadeIn past) := by
  refine store (found hm fun fields hfields => ?_)
  split
  · next v hv => exact pure hm (hm.values v (.field id fields name.text hfields hv))
  · cases of with
    | object t =>
      refine found hm fun type htype => ?_
      split
      · exact throw hm
      · refine found hm fun c hc => ?_
        exact (onStore (Q := fun _ => True) (.bindSelf hm c h) trivial).bind fun _ m' hm' _ =>
          pure hm' trivial
    | «enum» t =>
      refine found hm fun type htype => ?_
      split
      · exact pure hm trivial
      · split
        · exact pure hm trivial
        · exact throw hm
    | form t =>
      refine found hm fun type htype => ?_
      split
      · next v hv => exact pure hm (hm.values v (.member t type name.text htype hv))
      · exact throw hm

theorem native (hm : m.store.Recorded past) (fuel : Nat) (n : Native) (args : List Value) :
    Run.Leaves ((Value.native n).call (fuel + 1) args) m past (Value.MadeIn past) := by
  have hrest : ∀ (time : Float) (m : Machine), m.store.Recorded past → Run.Leaves (do
      Run.operator .blank (← Run.found (n.apply (← Run.store) time (args.map .value)))) m past
      (Value.MadeIn past) := by
    intro time m hm
    refine store (found hm fun result hresult => operator hm .blank fun v hv => ?_)
    exact Native.isConstant_of_apply (hv ▸ hresult)
  rw [Value.call]
  split
  · exact bind (Q := fun _ => True) ⟨.refl hm, fun _ _ => trivial⟩ fun time m' hm' _ =>
      hrest time m' hm'
  · exact hrest 0 m hm

theorem parent (hm : m.store.Recorded past) (fuel : Nat) (name : Token) :
    Run.Leaves ((Expr.parent name).eval (fuel + 1)) m past (Value.MadeIn past) := by
  refine get ?_
  split
  · exact throw hm
  · split
    · next v hv =>
      obtain ⟨i, hi⟩ := Scopes.exists_get?_of_resolve? _ _ _ hv
      exact pure hm (hm.values v (.binding i name.text hi))
    · exact throw hm

theorem global (hm : m.store.Recorded past) (fuel : Nat) (name : Token) :
    Run.Leaves ((Expr.global name).eval (fuel + 1)) m past (Value.MadeIn past) := by
  refine get ?_
  split
  · next v hv => exact pure hm (hm.values v (.binding m.globals name.text hv))
  · exact throw hm

theorem declareObject (hm : m.store.Recorded past) (name : Token) (methods : List Operation) :
    Run.Leaves (Run.declareObject name methods) m past fun _ => True := by
  refine (define hm name.text (v := .none) trivial).bind fun _ m₁ h₁ _ => get ?_
  refine (onStore (Q := fun _ => True) (.addMethods h₁ _ _) trivial).bind fun table m₂ h₂ _ => ?_
  refine (onStore (Q := fun _ => True) (.addObject h₂ _) trivial).bind fun t m₃ h₃ _ => ?_
  exact (define h₃ name.text (v := .type t) trivial).bind fun _ m₄ h₄ _ => emit h₄ _

theorem declareEnum (hm : m.store.Recorded past) (name : Token) (elements : List Token) :
    Run.Leaves (Run.declareEnum name elements) m past fun _ => True := by
  refine (define hm name.text (v := .none) trivial).bind fun _ m₁ h₁ _ => ?_
  refine (onStore (Q := fun _ => True) (.addEnum h₁ _) trivial).bind fun t m₂ h₂ _ => ?_
  exact (define h₂ name.text (v := .type t) trivial).bind fun _ m₃ h₃ _ => emit h₃ _

end Run.Leaves

end Treescript
