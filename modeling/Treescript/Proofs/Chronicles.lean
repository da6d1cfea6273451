import Treescript.Proofs.LiveReferences
import Treescript.Proofs.RaisedFailures

/-!
# Chronicles

The chronicle of a session lists in order what happens in it: the evaluations that begin and end,
the holders that are made, the fields that are written and the forms that are declared. A store is
recorded by a chronicle if its holders and their fields are just what the chronicle says, and the
chronicle knows the type of every holder that the store contains.
-/

namespace Treescript

inductive Entry where
  /-- No program is running. -/
  | idle (m : Machine)
  | begun (x : Evaluation)
  | ended (x : Evaluation)
  /-- A holder is made. Holders are numbered in this order. -/
  | made (of : TypeRef)
  | wrote (holder : Nat) (key : String) (value : Value)
  | declared (type : FormType)

abbrev Chronicle := List Entry

namespace Entry

def machine? : Entry → Option Machine
  | idle m => some m
  | begun x => some x.machine
  | ended x => some x.outcome.2
  | made _ | wrote .. | declared _ => none

def made? : Entry → Option TypeRef
  | made of => some of
  | _ => none

def declared? : Entry → Option FormType
  | declared type => some type
  | _ => none

/-- The value that is written to a field. -/
def written? (id : Nat) (key : String) : Entry → Option Value
  | wrote holder name value => if holder = id ∧ name = key then some value else none
  | _ => none

end Entry

namespace Chronicle

/-- The types of all holders, in the order of the holders. -/
def types (c : Chronicle) : List TypeRef := c.filterMap Entry.made?

def forms (c : Chronicle) : List FormType := c.filterMap Entry.declared?

/-- The value that was written last to a field. -/
def latest? (c : Chronicle) (id : Nat) (key : String) : Option Value :=
  c.reverse.findSome? (Entry.written? id key)

@[simp] theorem types_append (c c' : Chronicle) : types (c ++ c') = types c ++ types c' :=
  List.filterMap_append

@[simp] theorem forms_append (c c' : Chronicle) : forms (c ++ c') = forms c ++ forms c' :=
  List.filterMap_append

@[simp] theorem latest?_concat (c : Chronicle) (k : Entry) (id : Nat) (key : String) :
    latest? (c ++ [k]) id key = (k.written? id key).or (latest? c id key) := by
  rw [latest?, List.reverse_append, List.reverse_singleton, List.singleton_append,
    List.findSome?_cons]
  cases k.written? id key <;> rfl

end Chronicle

/-- What follows an evaluation if it ends with a result. -/
def Evaluation.whenDone (x : Evaluation) (next : x.job.Result → Machine → Chronicle) : Chronicle :=
  match x.outcome with
  | (.ok a, m) => next a m
  | (.error _, _) => []

theorem Evaluation.whenDone_ok {x : Evaluation} {next : x.job.Result → Machine → Chronicle}
    {a : x.job.Result} {m : Machine} (h : x.outcome = (.ok a, m)) : x.whenDone next = next a m := by
  rw [whenDone, h]

theorem Evaluation.whenDone_error {x : Evaluation} {next : x.job.Result → Machine → Chronicle}
    {stop : Stop} {m : Machine} (h : x.outcome = (.error stop, m)) : x.whenDone next = [] := by
  rw [whenDone, h]

theorem Evaluation.mem_whenDone {x : Evaluation} {next : x.job.Result → Machine → Chronicle}
    {k : Entry} (h : k ∈ x.whenDone next) : ∃ a m, k ∈ next a m := by
  rw [whenDone] at h
  split at h
  · exact ⟨_, _, h⟩
  · cases h

namespace Job

/-- What a job does to holders before its parts. -/
def opening : Job → Chronicle
  | invocation (.type t) _ => [.made t]
  | _ => []

theorem opening_eq_nil_or (t : Job) : t.opening = [] ∨ ∃ u args, t = invocation (.type u) args := by
  unfold opening
  split
  · exact .inr ⟨_, _, rfl⟩
  · exact .inl rfl

/-- What a job does to holders and forms after its parts. -/
def closing (fuel : Nat) (m : Machine) : Job → Chronicle
  | expr (.set object name value) =>
    Evaluation.whenDone ⟨fuel, .expr value, m⟩ fun v m₁ =>
      Evaluation.whenDone ⟨fuel, .expr object, m₁⟩ fun
        | .holder _ id, _ => [.wrote id name.text v]
        | _, _ => []
  | stmt (.form _ name ds) =>
    Evaluation.whenDone ⟨fuel, .members ds .empty, m.define name.text .none⟩ fun vs _ =>
      [.declared ⟨name.text, vs⟩]
  | _ => []

theorem machine?_of_mem_opening {t : Job} {k : Entry} (h : k ∈ t.opening) : k.machine? = none := by
  rcases t.opening_eq_nil_or with hnil | ⟨u, args, rfl⟩
  · rw [hnil] at h
    cases h
  · obtain rfl := List.mem_singleton.1 h
    rfl

theorem machine?_of_mem_closing {fuel : Nat} {m : Machine} {t : Job} {k : Entry}
    (h : k ∈ t.closing fuel m) : k.machine? = none := by
  unfold closing at h
  split at h
  · obtain ⟨v, m₁, h⟩ := Evaluation.mem_whenDone h
    obtain ⟨target, m₂, h⟩ := Evaluation.mem_whenDone h
    split at h
    · obtain rfl := List.mem_singleton.1 h
      rfl
    · cases h
  · obtain ⟨vs, m₁, h⟩ := Evaluation.mem_whenDone h
    obtain rfl := List.mem_singleton.1 h
    rfl
  · cases h

/-- The chronicle of any job but a program, which is told by its statements. -/
def chronicle : Nat → Machine → Job → Chronicle
  | 0, m, t => [.begun ⟨0, t, m⟩, .ended ⟨0, t, m⟩]
  | fuel + 1, m, t =>
    .begun ⟨fuel + 1, t, m⟩ ::
      (t.opening ++ (t.parts fuel m).flatMap (fun y => y.job.chronicle fuel y.machine) ++
        t.closing fuel m ++ [.ended ⟨fuel + 1, t, m⟩])

/-- The value is one that the job begins with. -/
def Given (v : Value) : Job → Prop
  | invocation callee args => v = callee ∨ v ∈ args
  | application _ args => v ∈ args
  | members _ before => ∃ x, before.get? x = some v
  | _ => False

/-- The value is among the results of the job. -/
def Yields (v : Value) : (t : Job) → t.Result → Prop
  | expr _, a | optional _, a | invocation .., a | application .., a => a = v
  | exprs _, vs => v ∈ (vs : List Value)
  | stmt _, c | stmts _, c | rounds .., c => c = Completion.returned v
  | members .., vs => ∃ x, NameMap.get? vs x = some v
  | arms _, _ | program _, _ => False

end Job

def Evaluation.chronicle (x : Evaluation) : Chronicle := x.job.chronicle x.fuel x.machine

theorem Evaluation.chronicle_succ (fuel : Nat) (t : Job) (m : Machine) :
    chronicle ⟨fuel + 1, t, m⟩ = .begun ⟨fuel + 1, t, m⟩ ::
      (t.opening ++ (t.parts fuel m).flatMap chronicle ++ t.closing fuel m ++
        [.ended ⟨fuel + 1, t, m⟩]) := by
  have hparts : (t.parts fuel m).flatMap (fun y => y.job.chronicle fuel y.machine) =
      (t.parts fuel m).flatMap chronicle := by
    rw [List.flatMap_def, List.flatMap_def, List.map_congr_left]
    intro y hy
    rw [chronicle, (Job.of_mem_parts hy).1]
  rw [← hparts]
  rfl

/-- The statements of a program up to the first that has no result. -/
def Program.chronicle (fuel : Nat) (m : Machine) : Program → Chronicle
  | [] => []
  | s :: rest =>
    Evaluation.chronicle ⟨fuel, .stmt s, m⟩ ++
      Evaluation.whenDone ⟨fuel, .stmt s, m⟩ fun _ m => Program.chronicle fuel m rest

/-- Programs one after the other, each with its fuel. -/
def Machine.chronicle (m : Machine) : List (Nat × Program) → Chronicle
  | [] => [.idle m]
  | (fuel, p) :: rest =>
    .idle m :: (p.chronicle fuel m ++ (m.interpret fuel p).2.chronicle rest)

namespace Entry

/-- The value is at hand when an evaluation begins or ends. -/
def AtHand (v : Value) : Entry → Prop
  | begun x => x.job.Given v
  | ended x => ∃ a, x.outcome.1 = .ok a ∧ x.job.Yields v a
  | _ => False

/-- The value is there at a point of the session: at hand or in the store. -/
def Has (k : Entry) (v : Value) : Prop :=
  k.AtHand v ∨ ∃ m, k.machine? = some m ∧ m.store.Contains v

end Entry

/-- The second store is a later one of the same session. -/
structure Store.Endures (s s' : Store) : Prop extends s.Grows s' where
  bound : ∀ i x, (s.scopes.get? i x).isSome → (s'.scopes.get? i x).isSome

namespace Store.Endures

variable {s s' s'' : Store}

theorem refl (s : Store) : s.Endures s := ⟨.refl s, fun _ _ h => h⟩

theorem trans (h : s.Endures s') (h' : s'.Endures s'') : s.Endures s'' :=
  ⟨h.toGrows.trans h'.toGrows, fun i x hx => h'.bound i x (h.bound i x hx)⟩

theorem of_grows (h : s.Grows s') (hscopes : ∀ i x, s'.scopes.get? i x = s.scopes.get? i x) :
    s.Endures s' :=
  ⟨h, fun i x hx => hscopes i x ▸ hx⟩

theorem define (s : Store) (i : ScopeId) (x : String) (v : Value) : s.Endures (s.define i x v) :=
  ⟨⟨.define .., Nat.le_refl _⟩, fun _ _ h => Scopes.isSome_get?_define _ h⟩

end Store.Endures

/-- The chronicle has the holder that the value is, with its type. -/
def Value.MadeIn (past : Chronicle) : Value → Prop
  | .holder of id => past.types[id]? = some of
  | _ => True

theorem Value.IsConstant.madeIn {v : Value} (h : v.IsConstant) (past : Chronicle) :
    v.MadeIn past := by
  cases v <;> trivial

theorem Value.MadeIn.append {v : Value} {past : Chronicle} (h : v.MadeIn past)
    (later : Chronicle) : v.MadeIn (past ++ later) := by
  cases v with
  | holder of id =>
    rw [MadeIn] at h ⊢
    have hlt := (List.getElem?_eq_some_iff.1 h).1
    rw [Chronicle.types_append, List.getElem?_append_left hlt]
    exact h
  | _ => trivial

structure Store.Recorded (past : Chronicle) (s : Store) : Prop where
  size : s.holders.size = past.types.length
  fields : ∀ id key, s.holders[id]?.bind (·.get? key) = past.latest? id key
  forms : s.forms.toList = past.forms
  values : ∀ v, s.Contains v → v.MadeIn past

theorem Store.Recorded.holder_lt {past : Chronicle} {s : Store} (h : s.Recorded past) {of : TypeRef}
    {id : Nat} (hv : (Value.holder of id).MadeIn past) : id < s.holders.size := by
  rw [h.size]
  exact (List.getElem?_eq_some_iff.1 hv).1

/-- The beginning and the end of an evaluation change nothing by themselves. -/
theorem Store.Recorded.concat {past : Chronicle} {s : Store} (h : s.Recorded past) {k : Entry}
    {m : Machine} (hk : k.machine? = some m) : s.Recorded (past ++ [k]) := by
  have hmade : k.made? = none := by cases k <;> first | rfl | cases hk
  have hdeclared : k.declared? = none := by cases k <;> first | rfl | cases hk
  have hwritten : ∀ id key, k.written? id key = none := by
    cases k <;> first | exact fun _ _ => rfl | cases hk
  refine ⟨?_, fun id key => ?_, ?_, fun v hv => (h.values v hv).append _⟩
  · simp [h.size, Chronicle.types, hmade]
  · rw [Chronicle.latest?_concat, hwritten]
    exact h.fields id key
  · simp [h.forms, Chronicle.forms, hdeclared]

/-- A later store that the chronicle records. -/
structure Store.Becomes (past : Chronicle) (s s' : Store) : Prop where
  endures : s.Endures s'
  recorded : s'.Recorded past

namespace Store.Becomes

variable {past : Chronicle} {s s' s'' : Store}

theorem refl (h : s.Recorded past) : s.Becomes past s := ⟨.refl s, h⟩

theorem trans (h : s.Endures s') (h' : s'.Becomes past s'') : s.Becomes past s'' :=
  ⟨h.trans h'.endures, h'.recorded⟩

/-- A step that leaves holders and forms alone: only its values have to be looked at. -/
theorem of_values (h : s.Recorded past) (he : s.Endures s') (hholders : s'.holders = s.holders)
    (hforms : s'.forms = s.forms) (hvalues : ∀ v, s'.Contains v → s.Contains v ∨ v.MadeIn past) :
    s.Becomes past s' := by
  refine ⟨he, ?_, ?_, ?_, fun v hv => (hvalues v hv).elim (h.values v) id⟩
  · rw [hholders]
    exact h.size
  · rw [hholders]
    exact h.fields
  · rw [hforms]
    exact h.forms

/-- A step that binds nothing, writes nothing and declares no form. -/
theorem of_bindings (h : s.Recorded past) (hg : s.Grows s') (hholders : s'.holders = s.holders)
    (hforms : s'.forms = s.forms) (hscopes : ∀ i x, s'.scopes.get? i x = s.scopes.get? i x) :
    s.Becomes past s' :=
  of_values h (.of_grows hg hscopes) hholders hforms fun _ hv =>
    .inl (hv.of_bindings hholders hforms hscopes)

theorem define (h : s.Recorded past) (i : ScopeId) (x : String) {v : Value} (hv : v.MadeIn past) :
    s.Becomes past (s.define i x v) := by
  refine of_values h (.define s i x v) rfl rfl fun w hw => hw.define_cases.imp_right ?_
  rintro rfl
  exact hv

theorem enterScope (h : s.Recorded past) (outer : ScopeId) :
    s.Becomes past (s.enterScope outer).1 :=
  of_bindings h ⟨.enterScope .., Nat.le_refl _⟩ rfl rfl fun _ _ => Scopes.get?_push ..

theorem defineAll (h : s.Recorded past) (i : ScopeId) {entries : List (String × Value)}
    (hv : ∀ entry ∈ entries, entry.2.MadeIn past) :
    s.Becomes past { s with scopes := s.scopes.defineAll i entries } := by
  induction entries generalizing s with
  | nil => exact refl h
  | cons entry rest ih =>
    have hfirst := define h i entry.1 (hv entry List.mem_cons_self)
    exact trans hfirst.endures
      (ih hfirst.recorded fun e he => hv e (List.mem_cons_of_mem _ he))

theorem addClosure (h : s.Recorded past) (c : Closure) : s.Becomes past (s.addClosure c).1 :=
  of_bindings h ⟨.addClosure .., Nat.le_refl _⟩ rfl rfl fun _ _ => rfl

theorem addMethods (h : s.Recorded past) (scope : ScopeId) (methods : List Operation) :
    s.Becomes past (s.addMethods scope methods).1 := by
  rw [Store.addMethods]
  generalize NameMap.empty = table
  induction methods generalizing s table with
  | nil => exact refl h
  | cons o rest ih =>
    have hfirst := addClosure h ⟨o, scope, o.name.text == pilotName⟩
    exact trans hfirst.endures (ih hfirst.recorded _)

theorem addObject (h : s.Recorded past) (t : ObjectType) : s.Becomes past (s.addObject t).1 :=
  of_bindings h ⟨.addObject .., Nat.le_refl _⟩ rfl rfl fun _ _ => rfl

theorem addEnum (h : s.Recorded past) (t : EnumType) : s.Becomes past (s.addEnum t).1 :=
  of_bindings h ⟨.addEnum .., Nat.le_refl _⟩ rfl rfl fun _ _ => rfl

theorem bindSelf (h : s.Recorded past) (c : Closure) {v : Value} (hv : v.MadeIn past) :
    s.Becomes past (s.bindSelf c v).1 := by
  have hentered := enterScope h c.scope
  have hdefined := define hentered.recorded s.scopes.size selfName hv
  exact trans (hentered.endures.trans hdefined.endures) (addClosure hdefined.recorded _)

theorem addForm (h : s.Recorded past) {t : FormType}
    (ht : ∀ x v, t.members.get? x = some v → v.MadeIn past) :
    s.Becomes (past ++ [.declared t]) (s.addForm t).1 := by
  refine ⟨.of_grows ⟨.addForm .., Nat.le_refl _⟩ fun _ _ => rfl, ?_, fun id key => ?_, ?_,
    fun v hv => Value.MadeIn.append ?_ _⟩
  · rw [Chronicle.types_append, List.length_append]
    exact h.size
  · rw [Chronicle.latest?_concat]
    exact h.fields id key
  · rw [Chronicle.forms_append, ← h.forms]
    exact Array.toList_push
  · rcases hv.addForm_cases with hv | ⟨x, hx⟩
    · exact h.values v hv
    · exact ht x v hx

theorem addHolder (h : s.Recorded past) (t : TypeRef) :
    s.Becomes (past ++ [.made t]) s.addHolder.1 := by
  refine ⟨.of_grows (.addHolder s) fun _ _ => rfl, ?_, fun id key => ?_, ?_, fun v hv =>
    (h.values v hv.of_addHolder).append _⟩
  · simp [Store.addHolder, h.size, Chronicle.types, Entry.made?]
  · rw [Chronicle.latest?_concat, ← h.fields id key]
    simp only [Store.addHolder, Array.getElem?_push]
    split
    · -- a new holder has no fields, and nothing was written to it before
      next hid => simp [hid, Entry.written?]
    · rfl
  · rw [Chronicle.forms_append, ← h.forms]
    exact (List.append_nil _).symm

theorem setField (h : s.Recorded past) {id : Nat} (hid : id < s.holders.size) (x : String)
    {v : Value} (hv : v.MadeIn past) :
    s.Becomes (past ++ [.wrote id x v]) (s.setField id x v) := by
  refine ⟨.of_grows (.setField ..) fun _ _ => rfl, ?_, fun j key => ?_, ?_, fun w hw =>
    Value.MadeIn.append ?_ _⟩
  · simp [Store.setField, h.size, Chronicle.types, Entry.made?]
  · rw [Chronicle.latest?_concat, ← h.fields j key, Entry.written?]
    simp only [Store.setField, Array.getElem?_modify]
    by_cases hj : id = j
    · subst hj
      by_cases hkey : x = key
      · simp [hid, hkey]
      · simp [hid, hkey, Ne.symm hkey]
    · simp [hj]
  · rw [Chronicle.forms_append, ← h.forms]
    exact (List.append_nil _).symm
  · rcases hw.setField_cases with hw | rfl
    · exact h.values w hw
    · exact hv

end Store.Becomes

end Treescript
