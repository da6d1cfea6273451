import Treescript.Proofs.LiveReferences
import Treescript.Proofs.OrdinaryFailures
import Treescript.Proofs.StrictFailures

/-!
# Safe runs

From a sound machine a run ends on a sound machine, with live values or with an ordinary failure
whose arguments are live. Here this is said of each step that a machine can take.
-/

namespace Treescript

/-- What a run may stop with. Faults are left to trees that are not proper. -/
def Stop.Sound (strict : Prop) (s : Store) : Stop → Prop
  | .failure f =>
    (strict → f.cause.Ordinary) ∧ ∀ args, f.args = some args → ∀ v ∈ args, v.Live s
  | .outOfFuel => True
  | .fault => ¬strict

/-- What a run may end with, if its results are to have a property. -/
def Settled {α : Type} (strict : Prop) (Q : α → Store → Prop) (s : Store) : Except Stop α → Prop
  | .ok a => Q a s
  | .error stop => stop.Sound strict s

/-- However the run ends, it leaves a sound machine, and what it ends with is sound there. -/
def Run.Ends {α : Type} (strict : Prop) (run : Run α) (m : Machine) (Q : α → Store → Prop) : Prop :=
  m.Proceeds strict (run.run m).2 ∧ Settled strict Q (run.run m).2.store (run.run m).1

variable {strict : Prop}

theorem Stop.Sound.of_cause {s : Store} {token : Token} {cause : Cause}
    (h : strict → cause.Ordinary) : (Stop.failure ⟨token, cause, none⟩).Sound strict s :=
  ⟨h, nofun⟩

theorem Stop.Sound.locatedAt {s : Store} {stop : Stop} (h : stop.Sound strict s) (token : Token) :
    (stop.locatedAt token).Sound strict s := by
  cases stop with
  | failure f =>
    have hcause : (f.locatedAt token).cause = f.cause := by
      rw [Failure.locatedAt]
      split <;> rfl
    have hargs : (f.locatedAt token).args = f.args := by
      rw [Failure.locatedAt]
      split <;> rfl
    exact ⟨fun hs => hcause ▸ h.1 hs, fun args h' => h.2 args (hargs ▸ h')⟩
  | outOfFuel => trivial
  | fault => exact h

namespace Run.Ends

variable {α β : Type} {run : Run α} {m m' : Machine} {Q R : α → Store → Prop} {S : β → Store → Prop}

theorem pure {a : α} (hm : m.Sound strict) (h : Q a m.store) :
    Run.Ends strict (Pure.pure a) m Q := ⟨.refl hm, h⟩

theorem throw {stop : Stop} (hm : m.Sound strict) (h : stop.Sound strict m.store) :
    Run.Ends strict (MonadExcept.throw stop) m Q := ⟨.refl hm, h⟩

theorem fail {token : Token} {cause : Cause} (hm : m.Sound strict) (h : strict → cause.Ordinary) :
    Run.Ends strict (Run.fail token cause) m Q := throw hm (.of_cause h)

theorem fault (hm : m.Sound strict) (h : ¬strict) :
    Run.Ends strict (MonadExcept.throw .fault) m Q := throw hm h

/-- The run goes on with another one from a later machine. -/
theorem of_run_eq {run' : Run α} (hp : m.Proceeds strict m') (h : run.run m = run'.run m')
    (h' : Run.Ends strict run' m' Q) : Run.Ends strict run m Q := by
  rw [Run.Ends, h]
  exact ⟨hp.trans h'.1, h'.2⟩

theorem step {prim : Run β} {k : β → Run α} {b : β} (h : prim.run m = (.ok b, m'))
    (hp : m.Proceeds strict m') (hk : Run.Ends strict (k b) m' Q) :
    Run.Ends strict (prim >>= k) m Q :=
  of_run_eq hp (by rw [run_bind_eq, h]) hk

theorem bind {k : α → Run β} (h : Run.Ends strict run m Q)
    (hk : ∀ a m', m.Proceeds strict m' → Q a m'.store → Run.Ends strict (k a) m' S) :
    Run.Ends strict (run >>= k) m S := by
  obtain ⟨hp, hend⟩ := h
  rw [Run.Ends, run_bind_eq]
  generalize run.run m = end_ at hp hend
  obtain ⟨stop | a, m'⟩ := end_
  · exact ⟨hp, hend⟩
  · obtain ⟨hp', hend'⟩ := hk a m' hp hend
    exact ⟨hp.trans hp', hend'⟩

theorem imp (h : Run.Ends strict run m Q) (himp : ∀ a s, Q a s → R a s) :
    Run.Ends strict run m R := by
  obtain ⟨hp, hend⟩ := h
  rw [Run.Ends]
  generalize run.run m = end_ at hp hend
  obtain ⟨stop | a, m'⟩ := end_
  · exact ⟨hp, hend⟩
  · exact ⟨hp, himp a m'.store hend⟩

theorem found {a? : Option α} {a : α} {k : α → Run β} (h : a? = some a)
    (hk : Run.Ends strict (k a) m S) : Run.Ends strict (Run.found a? >>= k) m S := by
  subst h
  exact hk

theorem store {k : Store → Run β} (h : Run.Ends strict (k m.store) m S) :
    Run.Ends strict (Run.store >>= k) m S := h

theorem get {k : Machine → Run β} (h : Run.Ends strict (k m) m S) :
    Run.Ends strict (MonadState.get >>= k) m S := h

theorem onStore {f : Store → Store × α} (hm : m.Sound strict) (hg : m.store.Grows (f m.store).1)
    (hs : (f m.store).1.Sound strict) (hq : Q (f m.store).2 (f m.store).1) :
    Run.Ends strict (Run.onStore f) m Q :=
  ⟨.of_store hm hg hs, hq⟩

theorem define (hm : m.Sound strict) (x : String) {v : Value} (hv : v.Live m.store) :
    Run.Ends strict (Run.define x v) m fun _ _ => True :=
  ⟨.define hm m.current x hv, trivial⟩

theorem emit (hm : m.Sound strict) (e : Event) :
    Run.Ends strict (Run.emit e) m fun _ _ => True :=
  ⟨⟨.refl _, hm.store, hm.globals_lt, hm.current_lt⟩, trivial⟩

theorem setProperty (hm : m.Sound strict) (id : Nat) (name : Token) {v : Value}
    (hv : v.Live m.store) : Run.Ends strict (Run.setProperty id name v) m fun _ _ => True :=
  ⟨.of_store hm (.setField ..) (hm.store.setField id name.text hv), trivial⟩

theorem within {scope : ScopeId} (hm : m.Sound strict)
    (h : Run.Ends strict run { m with current := scope } Q) :
    Run.Ends strict (Run.within scope run) m Q := by
  obtain ⟨hp, hend⟩ := h
  refine ⟨⟨hp.grows, hp.sound.store, hp.sound.globals_lt, ?_⟩, hend⟩
  exact Nat.lt_of_lt_of_le hm.current_lt hp.grows.scopes_le

theorem locating (token : Token) (h : Run.Ends strict run m Q) :
    Run.Ends strict (Run.locating token run) m Q := by
  obtain ⟨hp, hend⟩ := h
  rw [Run.Ends, Run.locating_run]
  generalize run.run m = end_ at hp hend
  obtain ⟨stop | a, m'⟩ := end_
  · exact ⟨hp, hend.locatedAt token⟩
  · exact ⟨hp, hend⟩

theorem lookup (hm : m.Sound strict) (token : Token) (x : String) (hops : Option Nat) :
    Run.Ends strict (Run.lookup token x hops) m fun v s => v.Live s := by
  rw [Run.Ends, Run.lookup_run]
  cases hv : (m.target? hops).bind (m.store.scopes.get? · x) with
  | none => exact ⟨.refl hm, .of_cause fun _ => trivial⟩
  | some v =>
    obtain ⟨i, -, hv⟩ := Option.bind_eq_some_iff.1 hv
    exact ⟨.refl hm, hm.store.values v (.binding i x hv)⟩

theorem assign (hm : m.Sound strict) (name : Token) (hops : Option Nat) {v : Value}
    (hv : v.Live m.store) : Run.Ends strict (Run.assign name hops v) m fun v s => v.Live s := by
  rw [Run.Ends, Run.assign_run]
  cases (m.target? hops).filter fun i => (m.store.scopes.get? i name.text).isSome with
  | none => exact ⟨.refl hm, .of_cause fun _ => trivial⟩
  | some i =>
    have hp : m.Proceeds strict _ := .define hm i name.text hv
    exact ⟨hp, hv.mono hp.grows⟩

theorem operator (hm : m.Sound strict) (token : Token) {result : Except Cause Value}
    (hok : ∀ v, result = .ok v → v.IsConstant)
    (herror : ∀ cause, result = .error cause → strict → cause.Ordinary) :
    Run.Ends strict (Run.operator token result) m fun v s => v.Live s := by
  cases result with
  | ok v => exact pure hm ((hok v rfl).live _)
  | error cause => exact fail hm (herror cause rfl)

theorem getProperty (hm : m.Sound strict) {of : TypeRef} {id : Nat}
    (h : (Value.holder of id).Live m.store) (name : Token) :
    Run.Ends strict (Run.getProperty of id name) m fun v s => v.Live s := by
  obtain ⟨hof, hid⟩ := h
  have hfields := Array.getElem?_eq_getElem hid
  refine store (found hfields ?_)
  split
  · next v hv => exact pure hm (hm.store.values v (.field id _ name.text hfields hv))
  · cases of with
    | object t =>
      have htype := Array.getElem?_eq_getElem hof
      refine found htype ?_
      split
      · exact fail hm fun _ => trivial
      · next method hmethod =>
        have hlt := hm.store.methods t _ name.text method htype hmethod
        have hclosure := Array.getElem?_eq_getElem hlt
        refine found hclosure ((onStore (Q := fun id s => (Value.operation id).Live s) hm
          ⟨.bindSelf .., Nat.le_refl _⟩ ?_ ?_).bind fun bound m' hp hbound => pure hp.sound hbound)
        · exact hm.store.bindSelf (hm.store.closures method _ hclosure) ⟨hof, hid⟩
        · simp [Value.Live, Store.bindSelf, Store.addClosure, Store.define, Store.enterScope]
    | «enum» t =>
      refine found (Array.getElem?_eq_getElem hof) ?_
      split
      · exact pure hm trivial
      · split
        · exact pure hm trivial
        · exact fail hm fun _ => trivial
    | form t =>
      have htype := Array.getElem?_eq_getElem hof
      refine found htype ?_
      split
      · next v hv => exact pure hm (hm.store.values v (.member t _ name.text htype hv))
      · exact fail hm fun _ => trivial

theorem native (hm : m.Sound strict) (fuel : Nat) {n : Native} {args : List Value}
    (h : args.length = n.arity) :
    Run.Ends strict ((Value.native n).call (fuel + 1) args) m fun v s => v.Live s := by
  have hrest : ∀ (time : Float) (m : Machine), m.Sound strict → Run.Ends strict (do
      Run.operator .blank (← Run.found (n.apply (← Run.store) time (args.map .value)))) m
      fun v s => v.Live s := by
    intro time m hm
    have hlength : (args.map Signal.value).length = n.arity := by rw [List.length_map, h]
    -- a native gives nothing back only if it lacks arguments
    obtain ⟨result, hresult⟩ :=
      Option.isSome_iff_exists.1 (Native.isSome_apply m.store time hlength)
    refine store (found hresult ?_)
    cases result with
    | ok v => exact pure hm ((Native.isConstant_of_apply hresult).live _)
    | error cause => exact fail hm fun _ => Native.ordinary_of_apply hresult
  rw [Value.call]
  split
  · exact step rfl ⟨.refl _, hm.store, hm.globals_lt, hm.current_lt⟩
      (hrest _ _ ⟨hm.store, hm.globals_lt, hm.current_lt⟩)
  · exact hrest 0 m hm

theorem parent (hm : m.Sound strict) (fuel : Nat) (name : Token) :
    Run.Ends strict ((Expr.parent name).eval (fuel + 1)) m fun v s => v.Live s := by
  refine get ?_
  split
  · exact fail hm fun _ => trivial
  · split
    · next v hv =>
      obtain ⟨i, hi⟩ := Scopes.exists_get?_of_resolve? _ _ _ hv
      exact pure hm (hm.store.values v (.binding i name.text hi))
    · exact fail hm fun _ => trivial

theorem global (hm : m.Sound strict) (fuel : Nat) (name : Token) :
    Run.Ends strict ((Expr.global name).eval (fuel + 1)) m fun v s => v.Live s := by
  refine get ?_
  split
  · next v hv => exact pure hm (hm.store.values v (.binding m.globals name.text hv))
  · exact fail hm fun _ => trivial

theorem declareObject (hm : m.Sound strict) (name : Token) {methods : List Operation}
    (hproper : strict → Operation.ProperList methods) :
    Run.Ends strict (Run.declareObject name methods) m fun _ _ => True := by
  refine (define hm name.text (v := .none) trivial).bind fun _ m₁ h₁ _ => get ?_
  obtain ⟨hsound, htable⟩ := h₁.sound.store.addMethods h₁.sound.current_lt hproper
  refine (onStore (Q := fun table s => ∀ x id, table.get? x = some id → id < s.closures.size)
    h₁.sound (.addMethods ..) hsound htable).bind fun table m₂ h₂ ht => ?_
  refine (onStore (Q := fun t s => t.Live s) h₂.sound ⟨.addObject .., Nat.le_refl _⟩
    (h₂.sound.store.addObject ht) ?_).bind fun t m₃ h₃ ht => ?_
  · simp [TypeRef.Live, Store.addObject]
  · exact (define h₃.sound name.text (v := .type t) ht).bind fun _ m₄ h₄ _ => emit h₄.sound _

theorem declareEnum (hm : m.Sound strict) (name : Token) (elements : List Token) :
    Run.Ends strict (Run.declareEnum name elements) m fun _ _ => True := by
  refine (define hm name.text (v := .none) trivial).bind fun _ m₁ h₁ _ => ?_
  refine (onStore (Q := fun t s => t.Live s) h₁.sound ⟨.addEnum .., Nat.le_refl _⟩
    (h₁.sound.store.addEnum _) ?_).bind fun t m₂ h₂ ht => ?_
  · simp [TypeRef.Live, Store.addEnum]
  · exact (define h₂.sound name.text (v := .type t) ht).bind fun _ m₃ h₃ _ => emit h₃.sound _

theorem declareForm (hm : m.Sound strict) (name : Token) {members : NameMap Value}
    (hmembers : ∀ x v, members.get? x = some v → v.Live m.store) :
    Run.Ends strict (Run.declareForm name members) m fun _ _ => True := by
  refine (onStore (Q := fun t s => t.Live s) hm ⟨.addForm .., Nat.le_refl _⟩
    (hm.store.addForm hmembers) ?_).bind fun t m₁ h₁ ht => ?_
  · simp [TypeRef.Live, Store.addForm]
  · exact (define h₁.sound name.text (v := .type t) ht).bind fun _ m₂ h₂ _ => emit h₂.sound _

end Run.Ends

end Treescript
