import Treescript.Proofs.ReceiverScopes

/-!
# What pilots hand back

A call of a type always gives the holder that it has made. A pilot that is read from an instance
and called hands back what `self` is in the scope of the operation when its body has ended. This is
the instance, unless something has been assigned to `self` there.
-/

namespace Treescript

/-- The methods that are pilots are those with the name of pilots. -/
def Store.Piloted (s : Store) : Prop :=
  ∀ (t : Nat) (type : ObjectType) (x : String) (id : Nat), s.objects[t]? = some type →
    type.methods.get? x = some id →
    ∃ c, s.closures[id]? = some c ∧ c.isPilot = (x == pilotName)

namespace Store.Piloted

variable {s s' : Store}

theorem addClosure (h : s.Piloted) (closure : Closure) : (s.addClosure closure).1.Piloted := by
  intro t type x id ht hid
  obtain ⟨c, hc, hpilot⟩ := h t type x id ht hid
  exact ⟨c, getElem?_push_of_eq_some hc closure, hpilot⟩

/-- Whether a method is a pilot is settled by its name when its type is declared. -/
theorem of_addMethods (s : Store) (scope : ScopeId) (methods : List Operation) :
    ∀ x id, (s.addMethods scope methods).2.get? x = some id →
      ∃ c, (s.addMethods scope methods).1.closures[id]? = some c ∧
        c.isPilot = (x == pilotName) := by
  have htable : ∀ (x : String) (id : Nat), NameMap.empty.get? x = some id →
      ∃ c, s.closures[id]? = some c ∧ c.isPilot = (x == pilotName) := nofun
  rw [Store.addMethods]
  generalize NameMap.empty = table at htable
  induction methods generalizing s table with
  | nil => exact htable
  | cons o rest ih =>
    refine ih (s.addClosure ⟨o, scope, o.name.text == pilotName⟩).1 _ fun x id hx => ?_
    rw [NameMap.get?_insert] at hx
    split at hx
    · next heq =>
      cases hx
      exact ⟨⟨o, scope, o.name.text == pilotName⟩, Array.getElem?_push_size .., by rw [heq]⟩
    · obtain ⟨c, hc, hpilot⟩ := htable x id hx
      exact ⟨c, getElem?_push_of_eq_some hc _, hpilot⟩

theorem alters {current : ScopeId} (h : s.Piloted) (ha : s.Alters current s') : s'.Piloted := by
  induction ha with
  | refl => exact h
  | trans _ _ ih ih' => exact ih' (ih h)
  | define | enter | addEnum | addForm | addHolder | setField => exact h
  | bindSelf | addOperation => exact addClosure h _
  | addObject s scope name methods =>
    obtain ⟨closures, heq⟩ := s.exists_addMethods_eq scope methods
    have hmethods := of_addMethods s scope methods
    have hg := Store.Grows.addMethods s scope methods
    intro t type x id ht hid
    change ((s.addMethods scope methods).1.objects.push _)[t]? = some type at ht
    rw [heq, Array.getElem?_push] at ht
    split at ht
    · -- the new type
      cases ht
      exact hmethods x id hid
    · obtain ⟨c, hc, hpilot⟩ := h t type x id ht hid
      exact ⟨c, hg.closures id c hc, hpilot⟩

theorem path {m m' : Machine} {c : Chronicle} (h : m.store.Piloted) (hpath : m.Path c m') :
    m'.store.Piloted := by
  induction hpath with
  | nil => exact h
  | silent _ _ ih => exact ih h
  | @entry m m₁ m' k c hk _ ih =>
    obtain ⟨s, halters, hstore⟩ := hk.store
    have hs := h.alters halters
    refine ih ?_
    rw [hstore]
    cases k.assignment? <;> exact hs

end Store.Piloted

/-- A pilot that ends hands back what `self` is by then. -/
theorem Closure.call_of_isPilot {fuel : Nat} {closure : Closure} {args : List Value}
    {m m' : Machine} {v w : Value} (h : (closure.call fuel args).run m = (.ok v, m'))
    (hpilot : closure.isPilot) (hself : m'.store.scopes.get? closure.scope selfName = some w) :
    v = w := by
  cases fuel with
  | zero => cases h
  | succ fuel =>
    rw [Closure.call, run_bind_eq] at h
    change ((Run.within _ _ >>= _).run _) = _ at h
    rw [run_bind_eq] at h
    split at h
    · next completion m₁ hbody =>
      rw [run_bind_eq, Run.run_store] at h
      dsimp only at h
      rw [hpilot] at h
      -- the result of the body counts only where `self` is unbound, which it is not
      cases hget : m₁.store.scopes.get? closure.scope selfName with
      | some self =>
        rw [hget] at h
        cases h
        exact Option.some.inj (hget.symm.trans hself)
      | none =>
        rw [hget] at h
        cases completion <;> cases h <;> cases hget.symm.trans hself
    · cases h

theorem Value.call_of_isPilot {fuel id : Nat} {args : List Value} {m m' : Machine} {v w : Value}
    {closure : Closure} (h : ((Value.operation id).call fuel args).run m = (.ok v, m'))
    (hclosure : m'.store.closures[id]? = some closure) (hpilot : closure.isPilot)
    (hself : m'.store.scopes.get? closure.scope selfName = some w) : v = w := by
  cases fuel with
  | zero => cases h
  | succ fuel =>
    rw [Value.call, run_bind_eq, Run.run_store] at h
    dsimp only at h
    cases hbefore : m.store.closures[id]? with
    | none =>
      rw [hbefore] at h
      cases h
    | some c =>
      rw [hbefore] at h
      have hcall : (c.call fuel args).run m = (.ok v, m') := h
      have hlater := ((c.continues fuel args).later m).store.closures id c hbefore
      rw [hcall] at hlater
      obtain rfl : c = closure := Option.some.inj (hlater.symm.trans hclosure)
      exact Closure.call_of_isPilot hcall hpilot hself

namespace Chronicle.OfSession

variable {c past rest : Chronicle}

theorem piloted (h : c.OfSession) {k : Entry} (hc : c = past ++ k :: rest) {m : Machine}
    (hk : k.machine? = some m) : m.store.Piloted := by
  obtain ⟨clock, modules, m', hpath, -⟩ := h.path_split hc hk
  refine Store.Piloted.path (fun t type x id ht _ => ?_) hpath
  exact absurd ht (by simp [Machine.start, Store.empty])

/-- Reading a property of an instance that has no field of this name gives the method, bound to
the instance. -/
theorem method_read (h : c.OfSession) {fuel : Nat} {object : Expr} {name : Token}
    {m m₁ m₂ : Machine} {t j : Nat} {v : Value}
    (hc : c = past ++ .ended ⟨fuel + 1, .expr (.get object name), m⟩ :: rest)
    (hobject : Evaluation.outcome ⟨fuel, .expr object, m⟩ = (.ok (.holder (.object t) j), m₁))
    (hown : past.latest? j name.text = none)
    (hread : Evaluation.outcome ⟨fuel + 1, .expr (.get object name), m⟩ = (.ok v, m₂)) :
    ∃ method, v = .operation m₁.store.closures.size ∧
      m₂ = m₁.bindSelf method (.holder (.object t) j) ∧
      method.isPilot = (name.text == pilotName) := by
  obtain ⟨before, rfl⟩ := h.object_ended hc
  rw [List.append_assoc, List.singleton_append] at hc
  have hmachine : (Entry.ended ⟨fuel, .expr object, m⟩).machine? = some m₁ := by
    rw [Entry.machine?, hobject]
  have hknown : Chronicle.Knows (before ++ [.ended ⟨fuel, .expr object, m⟩])
      (.holder (.object t) j) :=
    ⟨_, List.mem_concat_self, .inl ⟨_, congrArg Prod.fst hobject, rfl⟩⟩
  have hproperty := h.getProperty_run_eq hc hmachine hknown name
  rw [Chronicle.latest?_concat] at hown
  have hlatest : Chronicle.latest? before j name.text = none := hown
  have hrun : Evaluation.outcome ⟨fuel + 1, .expr (.get object name), m⟩ =
      (Run.getProperty (.object t) j name).run m₁ := by
    change (object.eval fuel >>= _).run m = _
    rw [run_bind_eq, show (object.eval fuel).run m = _ from hobject]
  rw [hrun, hproperty, hlatest, Machine.property] at hread
  cases hoffer : m₁.store.offer? name (.object t) with
  | none =>
    rw [hoffer] at hread
    cases hread
  | some offer =>
    rw [hoffer] at hread
    obtain ⟨method, hmethod, rfl⟩ := Option.map_eq_some_iff.1 hoffer
    cases hread
    obtain ⟨id, hid, hclosure⟩ := Option.bind_eq_some_iff.1 hmethod
    obtain ⟨type, htype, hid⟩ := Option.bind_eq_some_iff.1 hid
    obtain ⟨c', hc', hpilot⟩ := h.piloted hc hmachine t type name.text id htype hid
    obtain rfl : method = c' := Option.some.inj (hclosure.symm.trans hc')
    exact ⟨method, rfl, rfl, hpilot⟩

/-- A call of a type that ends without an error gives the holder that the call has made. When the
pilot of an instance is read, which has no field of this name, `self` is the instance in the scope
of the operation. Any later call of the operation that ends without an error gives the instance as
well, unless something has been assigned to `self` in this scope since then; if so, it gives what
was assigned last. -/
theorem pilot_hands_back_self (h : c.OfSession) :
    (∀ past fuel t args m later v m',
      c = past ++ .ended ⟨fuel, .invocation (.type t) args, m⟩ :: later →
      Evaluation.outcome ⟨fuel, .invocation (.type t) args, m⟩ = (.ok v, m') →
      v = .holder t m.store.holders.size ∧ m.store.holders.size < m'.store.holders.size) ∧
    ∀ past fuel object name m between fuel' id args m' later,
      c = past ++ .ended ⟨fuel + 1, .expr (.get object name), m⟩ ::
        (between ++ .ended ⟨fuel', .invocation (.operation id) args, m'⟩ :: later) →
      name.text = pilotName →
      ∀ t j m₁ m₂ v m₃,
        Evaluation.outcome ⟨fuel, .expr object, m⟩ = (.ok (.holder (.object t) j), m₁) →
        Chronicle.latest? past j pilotName = none →
        Evaluation.outcome ⟨fuel + 1, .expr (.get object name), m⟩ = (.ok (.operation id), m₂) →
        Evaluation.outcome ⟨fuel', .invocation (.operation id) args, m'⟩ = (.ok v, m₃) →
        ∃ closure, m₂.store.closures[id]? = some closure ∧
          m₂.store.scopes.get? closure.scope selfName = some (.holder (.object t) j) ∧
          v = (Chronicle.assigned? between closure.scope selfName).getD
            (.holder (.object t) j) := by
  refine ⟨fun past fuel t args m later v m' hc hcall => ?_, ?_⟩
  · obtain rfl := Value.call_type_ok hcall
    have hfits := h.fits hc
    have hmade := hfits.atHand _ ⟨_, congrArg Prod.fst hcall, rfl⟩
    have hrecorded := hfits.recorded m' (by rw [Entry.machine?, hcall])
    exact ⟨rfl, hrecorded.holder_lt hmade⟩
  · intro past fuel object name m between fuel' id args m' later hc hname t j m₁ m₂ v m₃ hobject
      hown hread hcall
    obtain ⟨method, hid, rfl, hpilot⟩ := h.method_read hc hobject (hname ▸ hown) hread
    obtain rfl := Value.operation.inj hid
    obtain ⟨hclosure, hself⟩ := h.receiver_at hc hobject (congrArg Prod.snd hread)
      (k := .ended ⟨fuel', .invocation _ args, m'⟩) (by rw [Entry.machine?, hcall])
    refine ⟨_, m₁.store.closures_bindSelf method _, m₁.self_bindSelf method _, ?_⟩
    -- the end of the call assigns nothing itself
    rw [Chronicle.assigned?_append, Option.or_some] at hself
    exact Value.call_of_isPilot hcall hclosure (hpilot.trans (beq_iff_eq.2 hname)) hself

end Chronicle.OfSession

/-- The pilot of an instance has been read: the type and the number of the instance, and the
operation. -/
def Entry.pilotRead? : Entry → Option (Nat × Nat × Nat)
  | .ended ⟨fuel + 1, .expr (.get object name), m⟩ =>
    match (object.eval fuel).run m, ((Expr.get object name).eval (fuel + 1)).run m with
    | (.ok (.holder (.object t) j), _), (.ok (.operation id), _) =>
      if name.text = pilotName then some (t, j, id) else none
    | _, _ => none
  | _ => none

/-- An operation has been called: its number and the result. -/
def Entry.called? : Entry → Option (Nat × Value)
  | .ended ⟨fuel, .invocation (.operation id) args, m⟩ =>
    match ((Value.operation id).call fuel args).run m with
    | (.ok v, _) => some (id, v)
    | _ => none
  | _ => none

theorem Entry.exists_of_pilotRead? {k : Entry} {t j id : Nat} (h : k.pilotRead? = some (t, j, id)) :
    ∃ fuel object name m m₁ m₂, k = .ended ⟨fuel + 1, .expr (.get object name), m⟩ ∧
      name.text = pilotName ∧
      Evaluation.outcome ⟨fuel, .expr object, m⟩ = (.ok (.holder (.object t) j), m₁) ∧
      Evaluation.outcome ⟨fuel + 1, .expr (.get object name), m⟩ = (.ok (.operation id), m₂) := by
  unfold pilotRead? at h
  split at h
  · next fuel object name m =>
    split at h
    · next hobject hread =>
      split at h
      · next hname =>
        cases h
        exact ⟨fuel, object, name, m, _, _, rfl, hname, hobject, hread⟩
      · cases h
    · cases h
  · cases h

theorem Entry.exists_of_called? {k : Entry} {id : Nat} {v : Value} (h : k.called? = some (id, v)) :
    ∃ fuel args m m₁, k = .ended ⟨fuel, .invocation (.operation id) args, m⟩ ∧
      Evaluation.outcome ⟨fuel, .invocation (.operation id) args, m⟩ = (.ok v, m₁) := by
  unfold called? at h
  split at h
  · next fuel id' args m =>
    split at h
    · next hcall =>
      cases h
      exact ⟨fuel, args, m, _, rfl, hcall⟩
    · cases h
  · cases h

/-- A pilot that assigns to `self`, and a call of it by way of an instance. -/
def assigningPilot : Program :=
  let name (text : String) : Token := ⟨.identifier, text, 1, .null⟩
  [.object .blank (name "O") [⟨.blank, name "pilot", [],
      [.expression .blank (.assign (name "self") (.literal .blank (.int 5)) none)]⟩],
    .define ⟨.blank, name "p", some (.call (.variable (name "O") none) .blank [])⟩,
    .expression .blank (.call (.get (.variable (name "p") none) (name "pilot")) .blank [])]

theorem assigningPilot_hands_back_five :
    let told := (Machine.start ⟨fun _ => 0, 0⟩ []).chronicle [(9, assigningPilot.resolve.program)]
    assigningPilot.resolve.diagnostics = [] ∧ told.OfSession ∧
    ∃ past r between y later id scope, told = past ++ r :: (between ++ y :: later) ∧
      r.pilotRead? = some (0, 0, id) ∧ Chronicle.latest? past 0 pilotName = none ∧
      y.called? = some (id, .int 5) ∧
      Chronicle.assigned? between scope selfName = some (.int 5) := by
  intro told
  have hsession : told.OfSession := ⟨⟨fun _ => 0, 0⟩, [], _, rfl⟩
  have hread : told[33]?.bind Entry.pilotRead? = some (0, 0, 2) := by decide +kernel
  have hcalled : ((told.drop 34)[15]?.bind Entry.called?).any
      (fun call => call.1 == 2 && call.2.equal (.int 5)) = true := by decide +kernel
  have hown : Chronicle.latest? (told.take 33) 0 pilotName = none :=
    Option.isNone_iff_eq_none.1 (by decide +kernel)
  have hsplit : ∀ {xs : Chronicle} {n : Nat} {k : Entry}, xs[n]? = some k →
      xs = xs.take n ++ k :: xs.drop (n + 1) := by
    intro xs n k hk
    obtain ⟨hn, rfl⟩ := List.getElem?_eq_some_iff.1 hk
    rw [List.getElem_cons_drop, List.take_append_drop]
  obtain ⟨r, hr, hread⟩ := Option.bind_eq_some_iff.1 hread
  obtain ⟨⟨id, v⟩, hcall, hresult⟩ := (Option.any_eq_true ..).1 hcalled
  obtain ⟨y, hy, hcall⟩ := Option.bind_eq_some_iff.1 hcall
  obtain ⟨hid, hv⟩ := Bool.and_eq_true_iff.1 hresult
  obtain rfl : id = 2 := beq_iff_eq.1 hid
  obtain rfl : v = .int 5 := Value.eq_of_equal (by simp) hv
  have htold := hsplit hr
  rw [hsplit hy] at htold
  obtain ⟨fuel, object, name, m, m₁, m₂, rfl, hname, hobject, hbound⟩ :=
    Entry.exists_of_pilotRead? hread
  obtain ⟨fuel', args, m', m₃, rfl, hended⟩ := Entry.exists_of_called? hcall
  obtain ⟨closure, -, -, hfive⟩ := hsession.pilot_hands_back_self.2 _ _ _ _ _ _ _ _ _ _ _ htold
    hname _ _ _ _ _ _ hobject hown hbound hended
  refine ⟨rfl, hsession, _, _, _, _, _, 2, closure.scope, htold, hread, hown, hcall, ?_⟩
  cases hassigned : Chronicle.assigned? ((told.drop 34).take 15) closure.scope selfName with
  | none =>
    rw [hassigned] at hfive
    cases hfive
  | some w =>
    rw [hassigned] at hfive
    exact congrArg some hfive.symm

end Treescript
