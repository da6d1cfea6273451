import Treescript.Proofs.Evaluations
import Treescript.Proofs.MovedTrees
import Treescript.Proofs.StrictFailures

/-!
# Runs on other rows

Machines are alike up to rows if they have the same bindings, fields and types, and operations whose
texts are alike. From such machines trees that are alike run alike: they end with the same values on
machines that are alike again, or with the same failure at related tokens. The one thing that a run
does with a row is to see if a failure has a place already, which related tokens agree about.
-/

namespace Treescript

variable {K : Token → Token → Prop}

structure Closure.Moved (K : Token → Token → Prop) (c c' : Closure) : Prop where
  declaration : Operation.Moved K c.declaration c'.declaration
  scope : c'.scope = c.scope
  isPilot : c'.isPilot = c.isPilot

structure Store.Moved (K : Token → Token → Prop) (s s' : Store) : Prop where
  scopes : s'.scopes = s.scopes
  closures : ∀ id : Nat, Option.Rel (Closure.Moved K) s.closures[id]? s'.closures[id]?
  size_closures : s'.closures.size = s.closures.size
  objects : s'.objects = s.objects
  enums : s'.enums = s.enums
  forms : s'.forms = s.forms
  holders : s'.holders = s.holders

/-- The same attributes but for the line. -/
def Record.SameButLine (r r' : Record) : Prop :=
  r'.level = r.level ∧ r'.message = r.message ∧
    List.Forall₂ (fun a a' => a'.1 = a.1 ∧ (a.1 ≠ "line" → a'.2 = a.2)) r.attrs r'.attrs

inductive Event.SameButLine : Event → Event → Prop
  | printed (line : String) : SameButLine (.printed line) (.printed line)
  | logged {r r' : Record} (h : r.SameButLine r') : SameButLine (.logged r) (.logged r')

structure Machine.Moved (K : Token → Token → Prop) (m m' : Machine) : Prop where
  store : m.store.Moved K m'.store
  globals : m'.globals = m.globals
  current : m'.current = m.current
  clock : m'.clock = m.clock
  events : List.Forall₂ Event.SameButLine m.events.toList m'.events.toList

theorem Operation.Moved.texts {o o' : Operation} (h : Operation.Moved K o o') :
    o'.name.text = o.name.text ∧ o'.params.map (·.text) = o.params.map (·.text) := by
  obtain ⟨-, hname, hparams, -⟩ := h
  refine ⟨hname.text, ?_⟩
  induction hparams with
  | nil => rfl
  | cons hparam _ ih => simp [hparam.text, ih]

theorem Operation.Moved.body {o o' : Operation} (h : Operation.Moved K o o') :
    List.Forall₂ (Stmt.Moved K) o.body o'.body := by
  obtain ⟨-, -, -, hbody⟩ := h
  exact hbody

theorem Closure.Moved.arity {c c' : Closure} (h : c.Moved K c') : c'.arity = c.arity := by
  simpa [Closure.arity] using congrArg List.length h.declaration.texts.2

theorem Token.Moved.prefixed {t t' : Token} (h : t.Moved t') (v : Value) :
    Operator.prefixed t' v = Operator.prefixed t v := by
  simp only [Operator.prefixed, h.kind, h.text]

theorem Token.Moved.counted {t t' : Token} (h : t.Moved t') (v : Value) :
    Operator.counted t' v = Operator.counted t v := by
  cases v <;> simp only [Operator.counted, h.kind, h.text]

namespace Store.Moved

variable {s s' : Store}

theorem closureArity (h : s.Moved K s') (id : Nat) : s'.closureArity id = s.closureArity id := by
  have hid := h.closures id
  rw [Store.closureArity, Store.closureArity]
  generalize s.closures[id]? = c?, s'.closures[id]? = c'? at hid
  cases hid with
  | none => rfl
  | some hc => exact hc.arity

theorem pilot? (h : s.Moved K s') (t : TypeRef) : s'.pilot? t = s.pilot? t := by
  cases t <;> simp [Store.pilot?, h.objects]

theorem arity? (h : s.Moved K s') (v : Value) : s'.arity? v = s.arity? v := by
  cases v with
  | operation id => simp [Store.arity?, h.closureArity]
  | type t =>
    have harity : s'.closureArity = s.closureArity := funext h.closureArity
    simp [Store.arity?, h.pilot?, harity]
  | _ => rfl

theorem typeName (h : s.Moved K s') (t : TypeRef) : s'.typeName t = s.typeName t := by
  cases t <;> simp [Store.typeName, h.objects, h.enums, h.forms]

theorem display (h : s.Moved K s') (v : Value) : s'.display v = s.display v := by
  cases v with
  | bool b => cases b <;> rfl
  | operation id =>
    have hid := h.closures id
    rw [Store.display, Store.display]
    generalize s.closures[id]? = c?, s'.closures[id]? = c'? at hid
    cases hid with
    | none => rfl
    | some hc => simp [hc.declaration.texts.1]
  | type t => exact h.typeName t
  | holder t id => cases t <;> simp [Store.display, h.typeName]
  | _ => rfl

theorem displaySignal (h : s.Moved K s') (x : Signal) : s'.displaySignal x = s.displaySignal x := by
  cases x with
  | value v | returned _ v => exact h.display v
  | failed => rfl

theorem native (h : s.Moved K s') (n : Native) (time : Float) (args : List Signal) :
    n.apply s' time args = n.apply s time args := by
  cases n <;> cases args <;> simp [Native.apply, h.displaySignal]

theorem between (h : s.Moved K s') {t t' : Token} (ht : t.Moved t') (left right : Value) :
    Operator.between s' t' left right = Operator.between s t left right := by
  simp only [Operator.between, Operator.add, Operator.onIntegers, Operator.onFloats, ht.kind,
    ht.text, h.display]

theorem define (h : s.Moved K s') (i : ScopeId) (x : String) (v : Value) :
    (s.define i x v).Moved K (s'.define i x v) :=
  { h with scopes := by rw [Store.define, Store.define, h.scopes] }

theorem enterScope (h : s.Moved K s') (outer : ScopeId) :
    (s.enterScope outer).1.Moved K (s'.enterScope outer).1 :=
  { h with scopes := by simp only [Store.enterScope, h.scopes] }

theorem addClosure (h : s.Moved K s') {c c' : Closure} (hc : c.Moved K c') :
    (s.addClosure c).1.Moved K (s'.addClosure c').1 := by
  refine { h with closures := fun id => ?_, size_closures := ?_ }
  · simp only [Store.addClosure, Array.getElem?_push, h.size_closures]
    split
    · exact .some hc
    · exact h.closures id
  · simp [Store.addClosure, h.size_closures]

theorem bindSelf (h : s.Moved K s') {c c' : Closure} (hc : c.Moved K c') (v : Value) :
    (s.bindSelf c v).1.Moved K (s'.bindSelf c' v).1 ∧
      (s'.bindSelf c' v).2 = (s.bindSelf c v).2 := by
  have hsize : (s'.enterScope c.scope).2 = (s.enterScope c.scope).2 := by
    simp only [Store.enterScope, h.scopes]
  simp only [Store.bindSelf, hc.scope, hsize]
  refine ⟨((h.enterScope c.scope).define _ selfName v).addClosure ⟨hc.declaration, rfl, hc.isPilot⟩,
    h.size_closures⟩

theorem addMethods (h : s.Moved K s') (scope : ScopeId) {methods methods' : List Operation}
    (hmethods : List.Forall₂ (Operation.Moved K) methods methods') :
    (s.addMethods scope methods).1.Moved K (s'.addMethods scope methods').1 ∧
      (s'.addMethods scope methods').2 = (s.addMethods scope methods).2 := by
  rw [Store.addMethods, Store.addMethods]
  generalize NameMap.empty = table
  induction hmethods generalizing s s' table with
  | nil => exact ⟨h, rfl⟩
  | @cons o o' rest rest' ho _ ih =>
    have hadd : Store.Moved K (s.addClosure ⟨o, scope, o.name.text == pilotName⟩).1
        (s'.addClosure ⟨o', scope, o.name.text == pilotName⟩).1 := h.addClosure ⟨ho, rfl, rfl⟩
    simp only [List.foldl_cons, ho.texts.1]
    simp only [Store.addClosure, h.size_closures] at hadd ⊢
    exact ih hadd _

end Store.Moved

namespace Machine.Moved

variable {m m' : Machine}

theorem of_store (h : m.Moved K m') {s s' : Store} (hs : s.Moved K s') :
    Machine.Moved K { m with store := s } { m' with store := s' } :=
  { h with store := hs }

theorem target? (h : m.Moved K m') (hops : Option Nat) : m'.target? hops = m.target? hops := by
  cases hops <;> simp [Machine.target?, h.globals, h.current, h.store.scopes]

end Machine.Moved

theorem Record.SameButLine.refl (r : Record) : r.SameButLine r :=
  ⟨rfl, rfl, List.forall₂_same.2 fun _ _ => ⟨rfl, fun _ => rfl⟩⟩

theorem Event.SameButLine.refl : (e : Event) → e.SameButLine e
  | .printed line => .printed line
  | .logged r => .logged (.refl r)

/-- Only the operations of a machine have tokens. -/
theorem Machine.moved_self {m : Machine}
    (h : ∀ (id : Nat) (c : Closure), m.store.closures[id]? = some c → c.Moved K c) :
    m.Moved K m := by
  have hclosures : ∀ id : Nat,
      Option.Rel (Closure.Moved K) m.store.closures[id]? m.store.closures[id]? := by
    intro id
    cases hc : m.store.closures[id]? with
    | none => exact .none
    | some c => exact .some (h id c hc)
  exact ⟨⟨rfl, hclosures, rfl, rfl, rfl, rfl, rfl⟩, rfl, rfl, rfl,
    List.forall₂_same.2 fun e _ => .refl e⟩

/-- Both runs have ended with related results or have stopped alike, at related tokens. -/
inductive EndsMoved {α β : Type} (P : Token → Token → Prop) (R : α → β → Prop) :
    Except Stop α → Except Stop β → Prop
  | ok {a : α} {b : β} (h : R a b) : EndsMoved P R (.ok a) (.ok b)
  | failure {t t' : Token} (h : P t t') (cause : Cause) (args : Option (List Value)) :
    EndsMoved P R (.error (.failure ⟨t, cause, args⟩)) (.error (.failure ⟨t', cause, args⟩))
  | outOfFuel : EndsMoved P R (.error .outOfFuel) (.error .outOfFuel)
  | fault : EndsMoved P R (.error .fault) (.error .fault)

/-- From machines that are alike, the runs end alike on machines that are alike. -/
def Run.Moved {α β : Type} (K P : Token → Token → Prop) (run : Run α) (run' : Run β)
    (R : α → β → Prop) : Prop :=
  ∀ m m', m.Moved K m' →
    (run.run m).2.Moved K (run'.run m').2 ∧ EndsMoved P R (run.run m).1 (run'.run m').1

namespace Run.Moved

variable {α β γ δ : Type} {P : Token → Token → Prop} {run : Run α} {run' : Run β}
  {R : α → β → Prop} {S : γ → δ → Prop}

theorem pure {a : α} {b : β} (h : R a b) : Run.Moved K P (Pure.pure a) (Pure.pure b) R :=
  fun _ _ hm => ⟨hm, .ok h⟩

theorem outOfFuel : Run.Moved K P (throw .outOfFuel) (throw .outOfFuel) R :=
  fun _ _ hm => ⟨hm, .outOfFuel⟩

theorem fault : Run.Moved K P (throw .fault) (throw .fault) R := fun _ _ hm => ⟨hm, .fault⟩

theorem fail {t t' : Token} (h : P t t') (cause : Cause) :
    Run.Moved K P (Run.fail t cause) (Run.fail t' cause) R :=
  fun _ _ hm => ⟨hm, .failure h cause none⟩

theorem refuse {t t' : Token} (h : P t t') (cause : Cause) (args : List Value) :
    Run.Moved K P (Run.refuse t cause args) (Run.refuse t' cause args) R :=
  fun _ _ hm => ⟨hm, .failure h cause (some args)⟩

theorem bind {k : α → Run γ} {k' : β → Run δ} (h : Run.Moved K P run run' R)
    (hk : ∀ a b, R a b → Run.Moved K P (k a) (k' b) S) :
    Run.Moved K P (run >>= k) (run' >>= k') S := by
  intro m m' hm
  obtain ⟨hm₁, hend⟩ := h m m' hm
  rw [run_bind_eq, run_bind_eq]
  generalize run.run m = end_, run'.run m' = end' at hm₁ hend
  obtain ⟨result, m₁⟩ := end_
  obtain ⟨result', m₁'⟩ := end'
  dsimp only at hm₁ hend
  cases hend with
  | ok hab => exact hk _ _ hab m₁ m₁' hm₁
  | failure ht cause args => exact ⟨hm₁, .failure ht cause args⟩
  | outOfFuel => exact ⟨hm₁, .outOfFuel⟩
  | fault => exact ⟨hm₁, .fault⟩

theorem imp {T : α → β → Prop} (h : Run.Moved K P run run' R) (himp : ∀ a b, R a b → T a b) :
    Run.Moved K P run run' T := by
  intro m m' hm
  obtain ⟨hm₁, hend⟩ := h m m' hm
  refine ⟨hm₁, ?_⟩
  generalize (run.run m).1 = result, (run'.run m').1 = result' at hend
  cases hend with
  | ok hab => exact .ok (himp _ _ hab)
  | failure ht cause args => exact .failure ht cause args
  | outOfFuel => exact .outOfFuel
  | fault => exact .fault

theorem ite {c : Prop} [Decidable c] {other : Run α} {other' : Run β}
    (h : Run.Moved K P run run' R) (ho : Run.Moved K P other other' R) :
    Run.Moved K P (if c then run else other) (if c then run' else other') R := by
  by_cases hc : c
  · rwa [if_pos hc, if_pos hc]
  · rwa [if_neg hc, if_neg hc]

theorem found {a? : Option α} {b? : Option β} (h : Option.Rel R a? b?) :
    Run.Moved K P (Run.found a?) (Run.found b?) R := by
  cases h with
  | none => exact fault
  | some hab => exact pure hab

theorem found_eq (a? : Option α) : Run.Moved K P (Run.found a?) (Run.found a?) (· = ·) := by
  cases a? with
  | none => exact fault
  | some a => exact pure rfl

theorem get : Run.Moved K P get get (Machine.Moved K) := fun _ _ hm => ⟨hm, .ok hm⟩

theorem store : Run.Moved K P Run.store Run.store (Store.Moved K) :=
  fun _ _ hm => ⟨hm, .ok hm.store⟩

theorem onStore {f : Store → Store × α} {f' : Store → Store × β}
    (h : ∀ s s', s.Moved K s' → (f s).1.Moved K (f' s').1 ∧ R (f s).2 (f' s').2) :
    Run.Moved K P (Run.onStore f) (Run.onStore f') R :=
  fun m m' hm => ⟨hm.of_store (h m.store m'.store hm.store).1, .ok (h m.store m'.store hm.store).2⟩

theorem define {t t' : Token} (h : t.Moved t') (v : Value) :
    Run.Moved K P (Run.define t.text v) (Run.define t'.text v) fun _ _ => True := by
  intro m m' hm
  refine ⟨hm.of_store ?_, .ok trivial⟩
  rw [h.text, hm.current]
  exact hm.store.define m.current t.text v

theorem emit {e e' : Event} (h : e.SameButLine e') :
    Run.Moved K P (Run.emit e) (Run.emit e') fun _ _ => True := by
  intro m m' hm
  have hevents : List.Forall₂ Event.SameButLine (m.events.push e).toList
      (m'.events.push e').toList := by
    rw [Array.toList_push, Array.toList_push]
    exact List.rel_append hm.events (.cons h .nil)
  exact ⟨{ hm with events := hevents }, .ok trivial⟩

theorem now : Run.Moved K P Run.now Run.now (· = ·) := by
  intro m m' hm
  have hclock : (Run.now.run m').2.clock = (Run.now.run m).2.clock :=
    congrArg (fun c : Clock => { c with taken := c.taken + 1 }) hm.clock
  have hreading : m.clock.reading m.clock.taken = m'.clock.reading m'.clock.taken := by
    rw [hm.clock]
  exact ⟨{ hm with clock := hclock }, .ok hreading⟩

theorem setProperty (id : Nat) {t t' : Token} (h : t.Moved t') (v : Value) :
    Run.Moved K P (Run.setProperty id t v) (Run.setProperty id t' v) fun _ _ => True := by
  intro m m' hm
  refine ⟨hm.of_store { hm.store with holders := ?_ }, .ok trivial⟩
  rw [Store.setField, Store.setField, hm.store.holders, h.text]

theorem within {scope : ScopeId} (h : Run.Moved K P run run' R) :
    Run.Moved K P (Run.within scope run) (Run.within scope run') R := by
  intro m m' hm
  obtain ⟨hm₁, hend⟩ := h { m with current := scope } { m' with current := scope }
    { hm with current := rfl }
  exact ⟨{ hm₁ with current := hm.current }, hend⟩

/-- Failures that have no place yet are located at the call, others stay where they are. -/
theorem locating (hK : Token.Faithful K) {t t' : Token} (h : K t t')
    (hP : ∀ u u', P u u' → K u u' ∨ u = .blank ∧ u' = .blank) (hrun : Run.Moved K P run run' R) :
    Run.Moved K K (Run.locating t run) (Run.locating t' run') R := by
  intro m m' hm
  obtain ⟨hm₁, hend⟩ := hrun m m' hm
  rw [Run.locating_run, Run.locating_run]
  generalize run.run m = end_, run'.run m' = end' at hm₁ hend
  obtain ⟨result, m₁⟩ := end_
  obtain ⟨result', m₁'⟩ := end'
  dsimp only at hm₁ hend
  cases hend with
  | ok hab => exact ⟨hm₁, .ok hab⟩
  | outOfFuel => exact ⟨hm₁, .outOfFuel⟩
  | fault => exact ⟨hm₁, .fault⟩
  | @failure u u' hu cause args =>
    refine ⟨hm₁, ?_⟩
    simp only [Stop.locatedAt, Failure.locatedAt]
    rcases hP u u' hu with hu | ⟨rfl, rfl⟩
    · rw [hK.blank u u' hu]
      split
      · exact .failure h cause args
      · exact .failure hu cause args
    · exact .failure h cause args

theorem lookup {t t' : Token} (h : P t t') (x : String) (hops : Option Nat) :
    Run.Moved K P (Run.lookup t x hops) (Run.lookup t' x hops) (· = ·) := by
  intro m m' hm
  rw [Run.lookup_run, Run.lookup_run, hm.target? hops, hm.store.scopes]
  cases (m.target? hops).bind (m.store.scopes.get? · x) with
  | none => exact ⟨hm, .failure h _ none⟩
  | some v => exact ⟨hm, .ok rfl⟩

theorem assign (hK : Token.Faithful K) {t t' : Token} (h : K t t') (hops : Option Nat)
    (v : Value) : Run.Moved K K (Run.assign t hops v) (Run.assign t' hops v) (· = ·) := by
  intro m m' hm
  have htext := (hK.moved t t' h).text
  rw [Run.assign_run, Run.assign_run, hm.target? hops, hm.store.scopes, htext]
  cases (m.target? hops).filter fun i => (m.store.scopes.get? i t.text).isSome with
  | none => exact ⟨hm, .failure h _ none⟩
  | some i => exact ⟨hm.of_store (hm.store.define i t.text v), .ok rfl⟩

theorem operator {t t' : Token} (h : P t t') (result : Except Cause Value) :
    Run.Moved K P (Run.operator t result) (Run.operator t' result) (· = ·) := by
  cases result with
  | ok v => exact pure rfl
  | error cause => exact fail h cause

theorem getProperty (hK : Token.Faithful K) {t t' : Token} (h : K t t') (of : TypeRef)
    (id : Nat) : Run.Moved K K (Run.getProperty of id t) (Run.getProperty of id t') (· = ·) := by
  have ht := hK.moved t t' h
  refine store.bind fun s s' hs => ?_
  rw [Store.fields?, Store.fields?, hs.holders, ht.text]
  refine (found_eq _).bind fun fields _ heq => ?_
  subst heq
  split
  · exact pure rfl
  · cases of with
    | object u =>
      rw [hs.objects]
      refine (found_eq _).bind fun type _ heq => ?_
      subst heq
      split
      · exact fail h _
      · next method _ =>
        refine (found (hs.closures method)).bind fun c c' hc => ?_
        exact (onStore (R := (· = ·)) fun s s' hs => ((hs.bindSelf hc _).imp_right Eq.symm)).bind
          fun bound _ heq => heq ▸ pure rfl
    | «enum» u =>
      rw [hs.enums, ht.literal]
      refine (found_eq _).bind fun type _ heq => ?_
      subst heq
      split
      · exact pure rfl
      · split
        · exact pure rfl
        · exact fail h _
    | form u =>
      rw [hs.forms]
      refine (found_eq _).bind fun type _ heq => ?_
      subst heq
      split
      · exact pure rfl
      · exact fail h _

theorem native (fuel : Nat) (n : Native) (args : List Value) :
    Run.Moved K (fun t t' => t = .blank ∧ t' = .blank) ((Value.native n).call (fuel + 1) args)
      ((Value.native n).call (fuel + 1) args) (· = ·) := by
  have hrest : ∀ time : Float, Run.Moved K (fun t t' => t = .blank ∧ t' = .blank) (do
      Run.operator .blank (← Run.found (n.apply (← Run.store) time (args.map .value)))) (do
      Run.operator .blank (← Run.found (n.apply (← Run.store) time (args.map .value))))
      (· = ·) := by
    intro time
    refine store.bind fun s s' hs => ?_
    rw [hs.native]
    refine (found_eq _).bind fun result _ heq => ?_
    subst heq
    exact operator ⟨rfl, rfl⟩ result
  rw [Value.call]
  split
  · exact now.bind fun time _ heq => heq ▸ hrest time
  · exact hrest 0

theorem parent (hK : Token.Faithful K) {t t' : Token} (h : K t t') (fuel : Nat) :
    Run.Moved K K ((Expr.parent t).eval (fuel + 1)) ((Expr.parent t').eval (fuel + 1))
      (· = ·) := by
  refine get.bind fun m m' hm => ?_
  rw [hm.store.scopes, hm.current, (hK.moved t t' h).text]
  split
  · exact fail h _
  · split
    · exact pure rfl
    · exact fail h _

theorem global (hK : Token.Faithful K) {t t' : Token} (h : K t t') (fuel : Nat) :
    Run.Moved K K ((Expr.global t).eval (fuel + 1)) ((Expr.global t').eval (fuel + 1))
      (· = ·) := by
  refine get.bind fun m m' hm => ?_
  rw [hm.store.scopes, hm.globals, (hK.moved t t' h).text]
  split
  · exact pure rfl
  · exact fail h _

/-- The record of a declaration tells the row of the name. -/
theorem logged {t t' : Token} (h : t.Moved t') (message key : String) (n : Literal) :
    Run.Moved K P
      (Run.log .debug message [("name", .text t.text), (key, n), ("line", .int (.ofInt t.row))])
      (Run.log .debug message [("name", .text t'.text), (key, n), ("line", .int (.ofInt t'.row))])
      fun _ _ => True := by
  refine emit (.logged ⟨rfl, rfl, .cons ⟨rfl, fun _ => ?_⟩ (.cons ⟨rfl, fun _ => rfl⟩
    (.cons ⟨rfl, fun hline => absurd rfl hline⟩ .nil))⟩)
  rw [h.text]

theorem declareObject {t t' : Token} (h : t.Moved t') {methods methods' : List Operation}
    (hmethods : List.Forall₂ (Operation.Moved K) methods methods') :
    Run.Moved K P (Run.declareObject t methods) (Run.declareObject t' methods')
      fun _ _ => True := by
  refine (define h .none).bind fun _ _ _ => get.bind fun m m' hm => ?_
  rw [hm.current]
  refine (onStore (R := (· = ·)) fun s s' hs =>
    (hs.addMethods m.current hmethods).imp_right Eq.symm).bind fun table _ heq => ?_
  subst heq
  refine (onStore (R := (· = ·)) fun s s' hs => ?_).bind fun type _ heq => ?_
  · refine ⟨{ hs with objects := ?_ }, ?_⟩
    · simp only [Store.addObject, hs.objects, h.text]
    · simp only [Store.addObject, hs.objects]
  · subst heq
    exact (define h _).bind fun _ _ _ => logged h _ _ _

theorem declareEnum {t t' : Token} (h : t.Moved t') {elements elements' : List Token}
    (helements : List.Forall₂ Token.Moved elements elements') :
    Run.Moved K P (Run.declareEnum t elements) (Run.declareEnum t' elements')
      fun _ _ => True := by
  have htexts : elements'.map (·.text) = elements.map (·.text) := by
    induction helements with
    | nil => rfl
    | cons hfirst _ ih => simp [hfirst.text, ih]
  refine (define h .none).bind fun _ _ _ => ?_
  refine (onStore (R := (· = ·)) fun s s' hs => ?_).bind fun type _ heq => ?_
  · refine ⟨{ hs with enums := ?_ }, ?_⟩
    · simp only [Store.addEnum, hs.enums, h.text, htexts]
    · simp only [Store.addEnum, hs.enums]
  · subst heq
    refine (define h _).bind fun _ _ _ => ?_
    rw [helements.length_eq]
    exact logged h _ _ _

theorem declareForm {t t' : Token} (h : t.Moved t') (members : NameMap Value) :
    Run.Moved K P (Run.declareForm t members) (Run.declareForm t' members) fun _ _ => True := by
  refine (onStore (R := (· = ·)) fun s s' hs => ?_).bind fun type _ heq => ?_
  · refine ⟨{ hs with forms := ?_ }, ?_⟩
    · simp only [Store.addForm, hs.forms, h.text]
    · simp only [Store.addForm, hs.forms]
  · subst heq
    exact (define h _).bind fun _ _ _ => logged h _ _ _

theorem enterCall {c c' : Closure} (h : c.Moved K c') (args : List Value) :
    Run.Moved K P (Run.enterCall c args) (Run.enterCall c' args) (· = ·) := by
  refine onStore fun s s' hs => ?_
  rw [h.scope, h.declaration.texts.2]
  refine ⟨{ hs with scopes := ?_ }, ?_⟩
  · simp only [Store.enterScope, hs.scopes]
  · simp only [Store.enterScope, hs.scopes]

end Run.Moved

/-- What a call fails with. Only natives fail without a place. -/
def Value.Raised (K : Token → Token → Prop) : Value → Token → Token → Prop
  | .native _ => fun t t' => t = .blank ∧ t' = .blank
  | _ => K

theorem Value.Raised.located {callee : Value} {t t' : Token} (h : callee.Raised K t t') :
    K t t' ∨ t = .blank ∧ t' = .blank := by
  cases callee with
  | native n => exact .inr h
  | _ => exact .inl h

mutual

theorem Expr.Moved.eval (hK : Token.Faithful K) {e e' : Expr} (h : Expr.Moved K e e') (fuel : Nat) :
    Run.Moved K K (e.eval fuel) (e'.eval fuel) (· = ·) := by
  match fuel, h with
  | 0, _ => exact .outOfFuel
  | fuel + 1, .hole => exact .fault
  | fuel + 1, .literal .. => exact .pure rfl
  | fuel + 1, @Expr.Moved.variable _ t t' h hops =>
    rw [Expr.eval, Expr.eval, (hK.moved t t' h).text]
    exact .lookup h t.text hops
  | fuel + 1, .self h hops => exact .lookup h selfName hops
  | fuel + 1, .assign h hvalue hops =>
    refine (hvalue.eval hK fuel).bind fun v _ heq => ?_
    subst heq
    exact .assign hK h hops v
  | fuel + 1, .unary h hright =>
    refine (hright.eval hK fuel).bind fun v _ heq => ?_
    subst heq
    rw [(hK.moved _ _ h).prefixed]
    exact .operator h _
  | fuel + 1, .binary hleft h hright =>
    refine (hleft.eval hK fuel).bind fun l _ heq => ?_
    subst heq
    refine (hright.eval hK fuel).bind fun r _ heq => ?_
    subst heq
    refine Run.Moved.store.bind fun s s' hs => ?_
    rw [hs.between (hK.moved _ _ h)]
    exact .operator h _
  | fuel + 1, .logical hleft h hright =>
    refine (hleft.eval hK fuel).bind fun l _ heq => ?_
    subst heq
    rw [(hK.moved _ _ h).kind]
    exact .ite (.pure rfl) (hright.eval hK fuel)
  | fuel + 1, .count h htarget hname hops =>
    refine (htarget.eval hK fuel).bind fun v _ heq => ?_
    subst heq
    rw [(hK.moved _ _ h).counted]
    refine (Run.Moved.operator h _).bind fun w _ heq => ?_
    subst heq
    exact .assign hK hname hops w
  | fuel + 1, .call hcallee h hargs =>
    refine (hcallee.eval hK fuel).bind fun callee _ heq => ?_
    subst heq
    refine (Expr.Moved.evalList hK hargs fuel).bind fun args _ heq => ?_
    subst heq
    refine Run.Moved.store.bind fun s s' hs => ?_
    rw [hs.arity?]
    cases s.arity? callee with
    | none => exact .refuse h _ args
    | some arity =>
      refine .ite (.refuse h _ args) ?_
      exact (Value.moved_call hK callee args fuel).locating hK h fun _ _ => Value.Raised.located
  | fuel + 1, .group _ hinner => exact hinner.eval hK fuel
  | fuel + 1, .get hobject h =>
    refine (hobject.eval hK fuel).bind fun target _ heq => ?_
    subst heq
    cases target with
    | holder of id => exact .getProperty hK h of id
    | _ => exact .fail h _
  | fuel + 1, .set hobject h hvalue =>
    refine (hvalue.eval hK fuel).bind fun v _ heq => ?_
    subst heq
    refine (hobject.eval hK fuel).bind fun target _ heq => ?_
    subst heq
    cases target with
    | holder of id =>
      exact (Run.Moved.setProperty id (hK.moved _ _ h) v).bind fun _ _ _ => .pure rfl
    | _ => exact .fail h _
  | fuel + 1, .parent h => exact .parent hK h fuel
  | fuel + 1, .global h => exact .global hK h fuel

theorem Expr.Moved.evalList (hK : Token.Faithful K) {es es' : List Expr}
    (h : List.Forall₂ (Expr.Moved K) es es') (fuel : Nat) :
    Run.Moved K K (Expr.evalList fuel es) (Expr.evalList fuel es') (· = ·) := by
  match fuel, h with
  | 0, _ => exact .outOfFuel
  | fuel + 1, .nil => exact .pure rfl
  | fuel + 1, .cons h hrest =>
    refine (h.eval hK fuel).bind fun v _ heq => ?_
    subst heq
    refine (Expr.Moved.evalList hK hrest fuel).bind fun vs _ heq => ?_
    subst heq
    exact .pure rfl

theorem Value.moved_call (hK : Token.Faithful K) (callee : Value) (args : List Value) (fuel : Nat) :
    Run.Moved K (callee.Raised K) (callee.call fuel args) (callee.call fuel args) (· = ·) := by
  match fuel, callee with
  | 0, _ => exact .outOfFuel
  | fuel + 1, .operation id =>
    refine Run.Moved.store.bind fun s s' hs => (Run.Moved.found (hs.closures id)).bind
      fun c c' hc => ?_
    exact hc.call hK args fuel
  | fuel + 1, .native n => exact .native fuel n args
  | fuel + 1, .type t =>
    refine (Run.Moved.onStore (R := (· = ·)) fun s s' hs => ?_).bind fun holder _ heq => ?_
    · exact ⟨{ hs with holders := by simp only [Store.addHolder, hs.holders] },
        by simp only [Store.addHolder, hs.holders]⟩
    · subst heq
      refine Run.Moved.store.bind fun s s' hs => ?_
      rw [hs.pilot?]
      cases s.pilot? t with
      | none => exact .pure rfl
      | some pilot =>
        refine Run.Moved.store.bind fun s s' hs =>
          (Run.Moved.found (hs.closures pilot)).bind fun c c' hc => ?_
        refine (Run.Moved.onStore (R := (· = ·)) fun s s' hs =>
          (hs.bindSelf hc _).imp_right Eq.symm).bind fun bound _ heq => ?_
        subst heq
        refine Run.Moved.store.bind fun s s' hs =>
          (Run.Moved.found (hs.closures bound)).bind fun c c' hc => ?_
        exact (hc.call hK args fuel).bind fun _ _ _ => .pure rfl
  | _ + 1, .none | _ + 1, .bool _ | _ + 1, .int _ | _ + 1, .float _ | _ + 1, .text _
  | _ + 1, .holder .. => exact .fault

theorem Closure.Moved.call (hK : Token.Faithful K) {c c' : Closure} (h : c.Moved K c')
    (args : List Value) (fuel : Nat) :
    Run.Moved K K (c.call fuel args) (c'.call fuel args) (· = ·) := by
  match fuel with
  | 0 => exact .outOfFuel
  | fuel + 1 =>
    refine (Run.Moved.enterCall h args).bind fun scope _ heq => ?_
    subst heq
    refine (Run.Moved.within (Stmt.Moved.execList hK h.declaration.body fuel)).bind
      fun completion _ heq => ?_
    subst heq
    refine Run.Moved.store.bind fun s s' hs => ?_
    rw [h.isPilot, h.scope, hs.scopes]
    dsimp only
    split <;> exact .pure rfl

theorem Stmt.Moved.exec (hK : Token.Faithful K) {s s' : Stmt} (h : Stmt.Moved K s s') (fuel : Nat) :
    Run.Moved K K (s.exec fuel) (s'.exec fuel) (· = ·) := by
  match fuel, h with
  | 0, _ => exact .outOfFuel
  | fuel + 1, .hole => exact .fault
  | fuel + 1, .expression _ hvalue => exact (hvalue.eval hK fuel).bind fun _ _ _ => .pure rfl
  | fuel + 1, .print _ hvalue =>
    refine (hvalue.eval hK fuel).bind fun v _ heq => ?_
    subst heq
    refine Run.Moved.store.bind fun s s' hs => ?_
    rw [hs.display]
    exact (Run.Moved.emit (.printed _)).bind fun _ _ _ => .pure rfl
  | fuel + 1, @Stmt.Moved.define _ d d' h =>
    obtain ⟨token, name, initial⟩ := d
    obtain ⟨token', name', initial'⟩ := d'
    refine (Expr.Moved.evalOptional hK h.initial fuel).bind fun v _ heq => ?_
    subst heq
    exact (Run.Moved.define h.name v).bind fun _ _ _ => .pure rfl
  | fuel + 1, .block _ hbody =>
    refine Run.Moved.get.bind fun m m' hm => ?_
    rw [hm.current]
    refine (Run.Moved.onStore (R := (· = ·)) fun s s' hs => ⟨hs.enterScope _, ?_⟩).bind
      fun scope _ heq => ?_
    · simp only [Store.enterScope, hs.scopes]
    · subst heq
      exact .within (Stmt.Moved.execList hK hbody fuel)
  | fuel + 1, .operation ho =>
    refine Run.Moved.get.bind fun m m' hm => ?_
    rw [hm.current]
    have hclosure : Closure.Moved K ⟨_, m.current, false⟩ ⟨_, m.current, false⟩ := ⟨ho, rfl, rfl⟩
    refine (Run.Moved.onStore (R := (· = ·)) fun s s' hs =>
      ⟨hs.addClosure hclosure, hs.size_closures.symm⟩).bind fun id _ heq => ?_
    subst heq
    exact (Run.Moved.define ho.name _).bind fun _ _ _ => .pure rfl
  | fuel + 1, .conditional _ hcondition hbranch harms hotherwise =>
    refine (hcondition.eval hK fuel).bind fun v _ heq => ?_
    subst heq
    refine .ite (hbranch.exec hK fuel) ?_
    refine (Arm.Moved.choose hK harms fuel).bind fun chosen chosen' hchosen => ?_
    match chosen, chosen', hchosen, hotherwise with
    | _, _, .some hchosen, _ => exact hchosen.exec hK fuel
    | _, _, .none, .some hlast => exact hlast.exec hK fuel
    | _, _, .none, .none => exact .pure rfl
  | fuel + 1, .arm ha =>
    obtain ⟨ht, -, -⟩ := ha
    exact .fail ht _
  | fuel + 1, .loop _ hcondition hbody => exact Stmt.Moved.repeat hK hcondition hbody fuel
  | fuel + 1, .return _ hvalue =>
    refine (Expr.Moved.evalOptional hK hvalue fuel).bind fun v _ heq => ?_
    subst heq
    exact .pure rfl
  | fuel + 1, .object _ hname hmethods =>
    exact (Run.Moved.declareObject hname hmethods).bind fun _ _ _ => .pure rfl
  | fuel + 1, .enum _ hname helements =>
    exact (Run.Moved.declareEnum hname helements).bind fun _ _ _ => .pure rfl
  | fuel + 1, .form _ hname hmembers =>
    refine (Run.Moved.define hname .none).bind fun _ _ _ => ?_
    refine (Definition.Moved.evalMembers hK hmembers .empty fuel).bind fun vs _ heq => ?_
    subst heq
    exact (Run.Moved.declareForm hname vs).bind fun _ _ _ => .pure rfl

theorem Expr.Moved.evalOptional (hK : Token.Faithful K) {e? e'? : Option Expr}
    (h : Option.Rel (Expr.Moved K) e? e'?) (fuel : Nat) :
    Run.Moved K K (Expr.evalOptional fuel e?) (Expr.evalOptional fuel e'?) (· = ·) := by
  match fuel, h with
  | 0, _ => exact .outOfFuel
  | fuel + 1, .none => exact .pure rfl
  | fuel + 1, .some h => exact h.eval hK fuel

theorem Stmt.Moved.execList (hK : Token.Faithful K) {ss ss' : List Stmt}
    (h : List.Forall₂ (Stmt.Moved K) ss ss') (fuel : Nat) :
    Run.Moved K K (Stmt.execList fuel ss) (Stmt.execList fuel ss') (· = ·) := by
  match fuel, h with
  | 0, _ => exact .outOfFuel
  | fuel + 1, .nil => exact .pure rfl
  | fuel + 1, .cons h hrest =>
    refine (h.exec hK fuel).bind fun completion _ heq => ?_
    subst heq
    cases completion with
    | normal => exact Stmt.Moved.execList hK hrest fuel
    | returned v => exact .pure rfl

theorem Arm.Moved.choose (hK : Token.Faithful K) {as as' : List Arm}
    (h : List.Forall₂ (Arm.Moved K) as as') (fuel : Nat) :
    Run.Moved K K (Arm.choose fuel as) (Arm.choose fuel as') (Option.Rel (Stmt.Moved K)) := by
  match fuel, h with
  | 0, _ => exact .outOfFuel
  | fuel + 1, .nil => exact .pure .none
  | fuel + 1, .cons (.mk _ hcondition hbranch) hrest =>
    refine (hcondition.eval hK fuel).bind fun v _ heq => ?_
    subst heq
    refine (Arm.Moved.choose hK hrest fuel).bind fun later later' hlater => ?_
    have hchosen : Option.Rel (Stmt.Moved K) (some _) (some _) := .some hbranch
    cases v.isTruthy with
    | false => exact .pure hlater
    | true =>
      cases hbranch with
      | hole => exact .pure hlater
      | _ => exact .pure hchosen

theorem Stmt.Moved.repeat (hK : Token.Faithful K) {condition condition' : Expr} {body body' : Stmt}
    (hcondition : Expr.Moved K condition condition') (hbody : Stmt.Moved K body body')
    (fuel : Nat) :
    Run.Moved K K (Stmt.repeat fuel condition body) (Stmt.repeat fuel condition' body')
      (· = ·) := by
  match fuel with
  | 0 => exact .outOfFuel
  | fuel + 1 =>
    refine (hcondition.eval hK fuel).bind fun v _ heq => ?_
    subst heq
    refine .ite ?_ (.pure rfl)
    refine (hbody.exec hK fuel).bind fun completion _ heq => ?_
    subst heq
    cases completion with
    | normal => exact Stmt.Moved.repeat hK hcondition hbody fuel
    | returned v => exact .pure rfl

theorem Definition.Moved.evalMembers (hK : Token.Faithful K) {ds ds' : List Definition}
    (h : List.Forall₂ (Definition.Moved K) ds ds') (members : NameMap Value) (fuel : Nat) :
    Run.Moved K K (Definition.evalMembers fuel ds members) (Definition.evalMembers fuel ds' members)
      (· = ·) := by
  match fuel, h with
  | 0, _ => exact .outOfFuel
  | fuel + 1, .nil => exact .pure rfl
  | fuel + 1, @List.Forall₂.cons _ _ _ d d' _ _ h hrest =>
    obtain ⟨token, name, initial⟩ := d
    obtain ⟨token', name', initial'⟩ := d'
    refine (Expr.Moved.evalOptional hK h.initial fuel).bind fun v _ heq => ?_
    subst heq
    refine (Run.Moved.define h.name v).bind fun _ _ _ => ?_
    have htext : name'.text = name.text := h.name.text
    rw [htext]
    exact Definition.Moved.evalMembers hK hrest _ fuel

end

theorem Program.Moved.run (hK : Token.Faithful K) {p p' : Program}
    (h : Program.Moved K p p') (fuel : Nat) :
    Run.Moved K K (p.run fuel) (p'.run fuel) fun _ _ => True := by
  induction h with
  | nil => exact .pure trivial
  | cons h _ ih => exact (h.exec hK fuel).bind fun _ _ _ => ih

inductive Ending.Moved (K : Token → Token → Prop) : Ending → Ending → Prop
  | finished : Moved K .finished .finished
  | aborted {t t' : Token} (h : K t t') (message : String) (args : Option (List String)) :
    Moved K (.aborted ⟨t, message, args⟩) (.aborted ⟨t', message, args⟩)
  | outOfFuel : Moved K .outOfFuel .outOfFuel
  | fault : Moved K .fault .fault

/-- Programs that are the same up to rows end alike. -/
theorem Program.Moved.interpret (hK : Token.Faithful K) {p p' : Program}
    (h : Program.Moved K p p') {m m' : Machine} (hm : m.Moved K m') (fuel : Nat) :
    Ending.Moved K (m.interpret fuel p).1 (m'.interpret fuel p').1 ∧
      (m.interpret fuel p).2.Moved K (m'.interpret fuel p').2 := by
  obtain ⟨hm₁, hend⟩ := h.run hK fuel m m' hm
  rw [Machine.interpret, Machine.interpret]
  generalize (Program.run fuel p).run m = end_, (Program.run fuel p').run m' = end' at hm₁ hend
  obtain ⟨result, m₁⟩ := end_
  obtain ⟨result', m₁'⟩ := end'
  dsimp only at hm₁ hend
  cases hend with
  | ok => exact ⟨.finished, hm₁⟩
  | outOfFuel => exact ⟨.outOfFuel, hm₁⟩
  | fault => exact ⟨.fault, hm₁⟩
  | failure ht cause args =>
    have hdisplay : m₁'.store.display = m₁.store.display := funext hm₁.store.display
    simp only [Failure.abort, hdisplay]
    refine ⟨.aborted ht _ _, { hm₁ with current := hm₁.globals, events := ?_ }⟩
    rw [Array.toList_push, Array.toList_push]
    refine List.rel_append hm₁.events (.cons (.logged ⟨rfl, rfl, ?_⟩) .nil)
    exact .cons ⟨rfl, fun hline => absurd rfl hline⟩ (.cons ⟨rfl, fun _ => rfl⟩ .nil)

end Treescript
