import Treescript.Proofs.ReadOnlyRuns

/-!
# The history of a store

A run only adds to a store. Scopes keep their outer scopes, and operations and types, once there,
are never replaced, so that whatever a program leaves behind means to every later program what it
meant to the program itself. Only the bindings of scopes and the fields of holders change.
-/

namespace Treescript

structure Store.Extends (s s' : Store) : Prop where
  scopes_le : s.scopes.size ≤ s'.scopes.size
  outer : ∀ i < s.scopes.size, s'.scopes.outer? i = s.scopes.outer? i
  closures : ∀ (id : Nat) (c : Closure), s.closures[id]? = some c → s'.closures[id]? = some c
  objects : ∀ (id : Nat) (t : ObjectType), s.objects[id]? = some t → s'.objects[id]? = some t
  enums : ∀ (id : Nat) (t : EnumType), s.enums[id]? = some t → s'.enums[id]? = some t
  forms : ∀ (id : Nat) (t : FormType), s.forms[id]? = some t → s'.forms[id]? = some t

theorem getElem?_push_of_eq_some {α : Type} {xs : Array α} {i : Nat} {a : α}
    (h : xs[i]? = some a) (b : α) : (xs.push b)[i]? = some a := by
  obtain ⟨hlt, -⟩ := Array.getElem?_eq_some_iff.1 h
  rw [Array.getElem?_push, if_neg (Nat.ne_of_lt hlt)]
  exact h

namespace Store.Extends

theorem refl (s : Store) : s.Extends s :=
  ⟨Nat.le_refl _, fun _ _ => rfl, fun _ _ h => h, fun _ _ h => h, fun _ _ h => h, fun _ _ h => h⟩

theorem trans {s₁ s₂ s₃ : Store} (h : s₁.Extends s₂) (h' : s₂.Extends s₃) : s₁.Extends s₃ where
  scopes_le := Nat.le_trans h.scopes_le h'.scopes_le
  outer i hi := (h'.outer i (Nat.lt_of_lt_of_le hi h.scopes_le)).trans (h.outer i hi)
  closures id c hc := h'.closures id c (h.closures id c hc)
  objects id t ht := h'.objects id t (h.objects id t ht)
  enums id t ht := h'.enums id t (h.enums id t ht)
  forms id t ht := h'.forms id t (h.forms id t ht)

/-- A step that leaves operations and types alone. -/
theorem of_scopes {s : Store} {scopes : Scopes Value} (hle : s.scopes.size ≤ scopes.size)
    (ho : ∀ i < s.scopes.size, scopes.outer? i = s.scopes.outer? i) :
    s.Extends { s with scopes } :=
  { refl s with scopes_le := hle, outer := ho }

theorem define (s : Store) (scope : ScopeId) (name : String) (value : Value) :
    s.Extends (s.define scope name value) :=
  of_scopes (Nat.le_of_eq (Scopes.size_define ..).symm) fun _ _ => Scopes.outer?_define ..

theorem enterScope (s : Store) (outer : ScopeId) : s.Extends (s.enterScope outer).1 :=
  of_scopes ((Scopes.size_push ..).symm ▸ Nat.le_succ _) fun _ hi => Scopes.outer?_push_of_lt _ hi _

theorem defineAll (s : Store) (scope : ScopeId) (entries : List (String × Value)) :
    s.Extends { s with scopes := s.scopes.defineAll scope entries } := by
  induction entries generalizing s with
  | nil => exact refl s
  | cons entry rest ih => exact (define s scope entry.1 entry.2).trans (ih _)

theorem addClosure (s : Store) (c : Closure) : s.Extends (s.addClosure c).1 :=
  { refl s with closures := fun _ _ h => getElem?_push_of_eq_some h c }

theorem addObject (s : Store) (t : ObjectType) : s.Extends (s.addObject t).1 :=
  { refl s with objects := fun _ _ h => getElem?_push_of_eq_some h t }

theorem addEnum (s : Store) (t : EnumType) : s.Extends (s.addEnum t).1 :=
  { refl s with enums := fun _ _ h => getElem?_push_of_eq_some h t }

theorem addForm (s : Store) (t : FormType) : s.Extends (s.addForm t).1 :=
  { refl s with forms := fun _ _ h => getElem?_push_of_eq_some h t }

theorem bindSelf (s : Store) (c : Closure) (value : Value) : s.Extends (s.bindSelf c value).1 :=
  ((enterScope s c.scope).trans (define ..)).trans (addClosure ..)

theorem addMethods (s : Store) (scope : ScopeId) (methods : List Operation) :
    s.Extends (s.addMethods scope methods).1 := by
  rw [Store.addMethods]
  generalize NameMap.empty = table
  induction methods generalizing s table with
  | nil => exact refl s
  | cons o rest ih => exact (addClosure ..).trans (ih _ _)

end Store.Extends

/-- The machine is a later one of the same session, back in the same scope. -/
structure Machine.Continues (m m' : Machine) : Prop where
  store : m.store.Extends m'.store
  globals : m'.globals = m.globals
  current : m'.current = m.current

namespace Machine.Continues

theorem refl (m : Machine) : m.Continues m := ⟨.refl _, rfl, rfl⟩

theorem trans {m₁ m₂ m₃ : Machine} (h : m₁.Continues m₂) (h' : m₂.Continues m₃) :
    m₁.Continues m₃ :=
  ⟨h.store.trans h'.store, h'.globals.trans h.globals, h'.current.trans h.current⟩

end Machine.Continues

/-- However the run ends, it leaves a later machine. -/
structure Run.Continues {α : Type} (run : Run α) : Prop where
  later : ∀ m : Machine, m.Continues (run.run m).2

namespace Run.Continues

variable {α β : Type} {run : Run α}

theorem of_reads (h : ∀ m, run.Reads m) : Run.Continues run := by
  refine ⟨fun m => ?_⟩
  rw [h m]
  exact .refl m

theorem pure (a : α) : Run.Continues (Pure.pure a) := of_reads fun _ => .pure a

theorem throw (stop : Stop) : Run.Continues (α := α) (MonadExcept.throw stop) :=
  of_reads fun _ => .throw stop

theorem bind {f : α → Run β} (h : Run.Continues run) (hf : ∀ a, Run.Continues (f a)) :
    Run.Continues (run >>= f) := by
  refine ⟨fun m => ?_⟩
  have hm := h.later m
  rw [run_bind_eq]
  generalize run.run m = end_ at hm
  obtain ⟨stop | a, m'⟩ := end_
  · exact hm
  · exact hm.trans ((hf a).later m')

theorem ite {c : Prop} [Decidable c] {other : Run α} (h : Run.Continues run)
    (ho : Run.Continues other) : Run.Continues (if c then run else other) := by
  by_cases hc : c
  · rwa [if_pos hc]
  · rwa [if_neg hc]

theorem get : Run.Continues get := of_reads fun _ => .get

theorem store : Run.Continues Run.store := of_reads fun _ => .store

theorem found (a? : Option α) : Run.Continues (Run.found a?) := of_reads fun _ => .found a?

theorem onStore {f : Store → Store × α} (hf : ∀ s : Store, s.Extends (f s).1) :
    Run.Continues (Run.onStore f) := ⟨fun m => ⟨hf m.store, rfl, rfl⟩⟩

theorem emit (e : Event) : Run.Continues (Run.emit e) := ⟨fun m => ⟨.refl m.store, rfl, rfl⟩⟩

theorem now : Run.Continues Run.now := ⟨fun m => ⟨.refl m.store, rfl, rfl⟩⟩

theorem define (name : String) (value : Value) : Run.Continues (Run.define name value) :=
  ⟨fun _ => ⟨.define .., rfl, rfl⟩⟩

theorem setProperty (id : Nat) (name : Token) (value : Value) :
    Run.Continues (Run.setProperty id name value) :=
  ⟨fun m => ⟨{ Store.Extends.refl m.store with }, rfl, rfl⟩⟩

theorem within (scope : ScopeId) (h : Run.Continues run) :
    Run.Continues (Run.within scope run) := by
  refine ⟨fun m => ?_⟩
  have hm := h.later { m with current := scope }
  exact ⟨hm.store, hm.globals, rfl⟩

theorem locating (token : Token) (h : Run.Continues run) :
    Run.Continues (Run.locating token run) := by
  refine ⟨fun m => ?_⟩
  have hm := h.later m
  rw [Run.locating, run_tryCatch_eq]
  generalize run.run m = end_ at hm
  obtain ⟨stop | a, m'⟩ := end_
  · cases stop <;> exact hm
  · exact hm

theorem lookup (token : Token) (name : String) (hops : Option Nat) :
    Run.Continues (Run.lookup token name hops) := of_reads fun _ => .lookup token name hops

theorem assign (name : Token) (hops : Option Nat) (value : Value) :
    Run.Continues (Run.assign name hops value) := by
  refine ⟨fun m => ?_⟩
  rw [Run.assign_run]
  cases (m.target? hops).filter fun i => (m.store.scopes.get? i name.text).isSome with
  | none => exact .refl m
  | some scope => exact ⟨.define .., rfl, rfl⟩

theorem operator (token : Token) (result : Except Cause Value) :
    Run.Continues (Run.operator token result) := of_reads fun _ => .operator token result

theorem getProperty (of : TypeRef) (id : Nat) (name : Token) :
    Run.Continues (Run.getProperty of id name) := by
  refine Run.Continues.store.bind fun s => (Run.Continues.found _).bind fun fields => ?_
  split
  · exact .pure _
  · cases of with
    | object t =>
      refine (Run.Continues.found _).bind fun type => ?_
      split
      · exact .throw _
      · refine (Run.Continues.found _).bind fun closure => ?_
        exact (Run.Continues.onStore fun s => .bindSelf s closure _).bind fun _ => .pure _
    | «enum» t =>
      refine (Run.Continues.found _).bind fun type => ?_
      split
      · exact .pure _
      · split
        · exact .pure _
        · exact .throw _
    | form t =>
      refine (Run.Continues.found _).bind fun type => ?_
      split
      · exact .pure _
      · exact .throw _

theorem enterCall (closure : Closure) (args : List Value) :
    Run.Continues (Run.enterCall closure args) :=
  .onStore fun s => (Store.Extends.enterScope s closure.scope).trans (.defineAll ..)

theorem declareObject (name : Token) (methods : List Operation) :
    Run.Continues (Run.declareObject name methods) :=
  (Run.Continues.define _ _).bind fun _ => Run.Continues.get.bind fun m =>
    (Run.Continues.onStore fun s => .addMethods s m.current methods).bind fun table =>
      (Run.Continues.onStore fun s => .addObject s ⟨name.text, table⟩).bind fun _ =>
        (Run.Continues.define _ _).bind fun _ => .emit _

theorem declareEnum (name : Token) (elements : List Token) :
    Run.Continues (Run.declareEnum name elements) :=
  (Run.Continues.define _ _).bind fun _ =>
    (Run.Continues.onStore fun s => .addEnum s _).bind fun _ =>
      (Run.Continues.define _ _).bind fun _ => .emit _

theorem declareForm (name : Token) (members : NameMap Value) :
    Run.Continues (Run.declareForm name members) :=
  (Run.Continues.onStore fun s => .addForm s _).bind fun _ =>
    (Run.Continues.define _ _).bind fun _ => .emit _

end Run.Continues

mutual

theorem Expr.continues (fuel : Nat) (e : Expr) : Run.Continues (e.eval fuel) := by
  match fuel, e with
  | 0, _ => exact .throw _
  | fuel + 1, .hole => exact .throw _
  | fuel + 1, .literal .. => exact .pure _
  | fuel + 1, .variable .. | fuel + 1, .self .. => exact .lookup ..
  | fuel + 1, .assign _ value _ => exact (Expr.continues fuel value).bind fun _ => .assign ..
  | fuel + 1, .unary _ right => exact (Expr.continues fuel right).bind fun _ => .operator ..
  | fuel + 1, .binary left _ right =>
    exact (Expr.continues fuel left).bind fun _ => (Expr.continues fuel right).bind fun _ =>
      Run.Continues.store.bind fun _ => .operator ..
  | fuel + 1, .logical left _ right =>
    exact (Expr.continues fuel left).bind fun _ => .ite (.pure _) (Expr.continues fuel right)
  | fuel + 1, .count _ target _ _ =>
    exact (Expr.continues fuel target).bind fun _ => (Run.Continues.operator ..).bind fun _ =>
      .assign ..
  | fuel + 1, .call callee paren args =>
    refine (Expr.continues fuel callee).bind fun callee => ?_
    refine (Expr.continuesList fuel args).bind fun args => Run.Continues.store.bind fun store => ?_
    cases store.arity? callee with
    | none => exact .throw _
    | some arity => exact .ite (.throw _) ((Value.continuesCall fuel callee args).locating paren)
  | fuel + 1, .group _ inner => exact Expr.continues fuel inner
  | fuel + 1, .get object name =>
    refine (Expr.continues fuel object).bind fun target => ?_
    cases target with
    | holder of id => exact .getProperty of id name
    | _ => exact .throw _
  | fuel + 1, .set object name value =>
    refine (Expr.continues fuel value).bind fun value => ?_
    refine (Expr.continues fuel object).bind fun target => ?_
    cases target with
    | holder of id => exact (Run.Continues.setProperty ..).bind fun _ => .pure _
    | _ => exact .throw _
  | fuel + 1, .parent name => exact .of_reads fun _ => .parent fuel name
  | fuel + 1, .global name => exact .of_reads fun _ => .global fuel name

theorem Expr.continuesList (fuel : Nat) (es : List Expr) :
    Run.Continues (Expr.evalList fuel es) := by
  match fuel, es with
  | 0, _ => exact .throw _
  | fuel + 1, [] => exact .pure _
  | fuel + 1, e :: es =>
    exact (Expr.continues fuel e).bind fun _ => (Expr.continuesList fuel es).bind fun _ => .pure _

theorem Value.continuesCall (fuel : Nat) (callee : Value) (args : List Value) :
    Run.Continues (callee.call fuel args) := by
  match fuel, callee with
  | 0, _ => exact .throw _
  | fuel + 1, .operation id =>
    exact Run.Continues.store.bind fun _ => (Run.Continues.found _).bind fun closure =>
      Closure.continues fuel closure args
  | fuel + 1, .native n =>
    rw [Value.call]
    split
    · exact Run.Continues.now.bind fun time => .of_reads fun _ => .applied n time args
    · exact .of_reads fun _ => .applied n 0 args
  | fuel + 1, .type t =>
    refine (Run.Continues.onStore fun s => { Store.Extends.refl s with }).bind fun holder => ?_
    refine Run.Continues.store.bind fun store => ?_
    cases store.pilot? t with
    | none => exact .pure _
    | some pilot =>
      refine Run.Continues.store.bind fun _ => (Run.Continues.found _).bind fun closure => ?_
      refine (Run.Continues.onStore fun s => .bindSelf s closure _).bind fun bound => ?_
      refine Run.Continues.store.bind fun _ => (Run.Continues.found _).bind fun closure => ?_
      exact (Closure.continues fuel closure args).bind fun _ => .pure _
  | _ + 1, .none | _ + 1, .bool _ | _ + 1, .int _ | _ + 1, .float _ | _ + 1, .text _
  | _ + 1, .holder .. => exact .throw _

theorem Closure.continues (fuel : Nat) (closure : Closure) (args : List Value) :
    Run.Continues (closure.call fuel args) := by
  match fuel with
  | 0 => exact .throw _
  | fuel + 1 =>
    refine (Run.Continues.enterCall closure args).bind fun scope => ?_
    refine ((Stmt.continuesList fuel closure.declaration.body).within scope).bind fun end_ => ?_
    refine Run.Continues.store.bind fun store => ?_
    cases closure.isPilot <;> cases store.scopes.get? closure.scope selfName <;> cases end_ <;>
      exact .pure _

theorem Stmt.continues (fuel : Nat) (s : Stmt) : Run.Continues (s.exec fuel) := by
  match fuel, s with
  | 0, _ => exact .throw _
  | fuel + 1, .hole => exact .throw _
  | fuel + 1, .expression _ value => exact (Expr.continues fuel value).bind fun _ => .pure _
  | fuel + 1, .print _ value =>
    exact (Expr.continues fuel value).bind fun _ => Run.Continues.store.bind fun _ =>
      (Run.Continues.emit _).bind fun _ => .pure _
  | fuel + 1, .define ⟨_, name, initial⟩ =>
    exact (Expr.continuesOptional fuel initial).bind fun _ =>
      (Run.Continues.define ..).bind fun _ => .pure _
  | fuel + 1, .block _ body =>
    exact Run.Continues.get.bind fun m => (Run.Continues.onStore fun s => .enterScope s _).bind
      fun scope => (Stmt.continuesList fuel body).within scope
  | fuel + 1, .operation o =>
    exact Run.Continues.get.bind fun m => (Run.Continues.onStore fun s => .addClosure s _).bind
      fun _ => (Run.Continues.define ..).bind fun _ => .pure _
  | fuel + 1, .conditional _ condition branch arms otherwise =>
    refine (Expr.continues fuel condition).bind fun _ => .ite (Stmt.continues fuel branch) ?_
    refine (Arm.continuesChoose fuel arms).bind fun chosen => ?_
    match chosen, otherwise with
    | some chosen, _ => exact Stmt.continues fuel chosen
    | none, some last => exact Stmt.continues fuel last
    | none, none => exact .pure _
  | fuel + 1, .arm _ => exact .throw _
  | fuel + 1, .loop _ condition body => exact Stmt.continuesRepeat fuel condition body
  | fuel + 1, .return _ value => exact (Expr.continuesOptional fuel value).bind fun _ => .pure _
  | fuel + 1, .object _ name methods =>
    exact (Run.Continues.declareObject ..).bind fun _ => .pure _
  | fuel + 1, .enum .. => exact (Run.Continues.declareEnum ..).bind fun _ => .pure _
  | fuel + 1, .form _ name members =>
    exact (Run.Continues.define ..).bind fun _ =>
      (Definition.continuesMembers fuel members .empty).bind fun _ =>
        (Run.Continues.declareForm ..).bind fun _ => .pure _

theorem Expr.continuesOptional (fuel : Nat) (e? : Option Expr) :
    Run.Continues (Expr.evalOptional fuel e?) := by
  match fuel, e? with
  | 0, _ => exact .throw _
  | fuel + 1, none => exact .pure _
  | fuel + 1, some e => exact Expr.continues fuel e

theorem Stmt.continuesList (fuel : Nat) (ss : List Stmt) :
    Run.Continues (Stmt.execList fuel ss) := by
  match fuel, ss with
  | 0, _ => exact .throw _
  | fuel + 1, [] => exact .pure _
  | fuel + 1, s :: ss =>
    refine (Stmt.continues fuel s).bind fun completion => ?_
    cases completion with
    | normal => exact Stmt.continuesList fuel ss
    | returned value => exact .pure _

theorem Arm.continuesChoose (fuel : Nat) (arms : List Arm) :
    Run.Continues (Arm.choose fuel arms) := by
  match fuel, arms with
  | 0, _ => exact .throw _
  | fuel + 1, [] => exact .pure _
  | fuel + 1, ⟨_, condition, branch⟩ :: rest =>
    refine (Expr.continues fuel condition).bind fun value => ?_
    refine (Arm.continuesChoose fuel rest).bind fun later => ?_
    cases value.isTruthy with
    | false => exact .pure _
    | true => cases branch <;> exact .pure _

theorem Stmt.continuesRepeat (fuel : Nat) (condition : Expr) (body : Stmt) :
    Run.Continues (Stmt.repeat fuel condition body) := by
  match fuel with
  | 0 => exact .throw _
  | fuel + 1 =>
    refine (Expr.continues fuel condition).bind fun value => .ite ?_ (.pure _)
    refine (Stmt.continues fuel body).bind fun completion => ?_
    cases completion with
    | normal => exact Stmt.continuesRepeat fuel condition body
    | returned value => exact .pure _

theorem Definition.continuesMembers (fuel : Nat) (ds : List Definition)
    (members : NameMap Value) : Run.Continues (Definition.evalMembers fuel ds members) := by
  match fuel, ds with
  | 0, _ => exact .throw _
  | fuel + 1, [] => exact .pure _
  | fuel + 1, ⟨_, name, initial⟩ :: rest =>
    exact (Expr.continuesOptional fuel initial).bind fun _ =>
      (Run.Continues.define ..).bind fun _ => Definition.continuesMembers fuel rest _

end

theorem Program.continues (fuel : Nat) (p : Program) : Run.Continues (p.run fuel) := by
  induction p with
  | nil => exact .pure _
  | cons s rest ih => exact (Stmt.continues fuel s).bind fun _ => ih

end Treescript
