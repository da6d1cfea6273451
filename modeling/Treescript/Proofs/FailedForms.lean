import Treescript.Proofs.AssignedBindings

/-!
# Forms whose declaration fails

The declaration of a form binds its name before the members, and each member before the default of
the next one. When a default fails, all this is left as it is. So afterwards the name of the form
holds `none`, whatever it held before, and the members up to the one that failed hold their values.
No other name is touched, apart from what the defaults themselves assign.
-/

namespace Treescript

/-- A member of a form that has been bound to the value of its default. -/
structure BoundMember where
  definition : Definition
  fuel : Nat
  machine : Machine
  value : Value
  after : Machine
  evaluated : Evaluation.outcome ⟨fuel, .optional definition.initial, machine⟩ = (.ok value, after)

namespace BoundMember

abbrev default (r : BoundMember) : Evaluation := ⟨r.fuel, .optional r.definition.initial, r.machine⟩

/-- The machine when the member is bound. -/
def bound (r : BoundMember) : Machine := r.after.define r.definition.name.text r.value

/-- What a variable has been given last: the member itself is bound after its default has been
evaluated. -/
def given? (i : ScopeId) (x : String) (r : BoundMember) : Option Value :=
  if r.definition.name.text = x then some r.value else r.default.chronicle.assigned? i x

theorem current_bound (r : BoundMember) : r.bound.current = r.machine.current :=
  Evaluation.current_eq r.evaluated

theorem size_le (r : BoundMember) :
    r.machine.store.scopes.size ≤ r.bound.store.scopes.size := by
  have hsize := r.default.continues.store.scopes_le
  rw [r.evaluated] at hsize
  exact hsize.trans_eq (Scopes.size_define ..).symm

/-- What the scope holds when a member has been bound. -/
theorem get?_bound (r : BoundMember) (h : r.machine.current < r.machine.store.scopes.size)
    (x : String) :
    r.bound.store.scopes.get? r.machine.current x =
      (r.given? r.machine.current x).or (r.machine.store.scopes.get? r.machine.current x) := by
  have htells : r.default.Tells r.machine.current x := Evaluation.tells (y := r.default) trivial h x
  have hcurrent := Evaluation.current_eq r.evaluated
  have hsize := r.default.continues.store.scopes_le
  rw [Evaluation.Tells, r.evaluated] at htells
  rw [r.evaluated] at hsize
  refine (Scopes.get?_define ..).trans ?_
  rw [given?, hcurrent]
  by_cases hx : r.definition.name.text = x
  · rw [if_pos ⟨rfl, hx.symm, Nat.lt_of_lt_of_le h hsize⟩, if_pos hx]
    rfl
  · rw [if_neg fun hc => hx hc.2.1.symm, if_neg hx]
    exact htells

end BoundMember

/-- Members are bound one after the other. -/
inductive Machine.Binds : Nat → Machine → List BoundMember → Nat → Machine → Prop
  | nil (fuel : Nat) (m : Machine) : Binds fuel m [] fuel m
  | cons (r : BoundMember) {rs : List BoundMember} {fuel : Nat} {m : Machine}
    (h : Binds r.fuel r.bound rs fuel m) : Binds (r.fuel + 1) r.machine (r :: rs) fuel m

namespace Machine.Binds

variable {fuel k : Nat} {m m' : Machine} {rs : List BoundMember}

theorem size_le (h : Binds fuel m rs k m') : m.store.scopes.size ≤ m'.store.scopes.size := by
  induction h with
  | nil => exact Nat.le_refl _
  | cons r _ ih => exact r.size_le.trans ih

/-- Members that are bound one after the other. The last one to give a variable a value counts. -/
theorem get?_eq (h : Binds fuel m rs k m') (hm : m.current < m.store.scopes.size) (x : String) :
    m'.store.scopes.get? m.current x =
      (rs.reverse.findSome? (BoundMember.given? m.current x)).or
        (m.store.scopes.get? m.current x) := by
  induction h with
  | nil => rfl
  | cons r h ih =>
    have hlt := Nat.lt_of_lt_of_le hm r.size_le
    rw [r.current_bound] at ih
    rw [ih hlt, r.get?_bound hm, List.reverse_cons, List.findSome?_append,
      List.findSome?_singleton, Option.or_assoc]

end Machine.Binds

/-- Members fail with a default, after those before it have been bound. -/
theorem Definition.exists_of_members_fail {fuel : Nat} {ds : List Definition}
    {before : NameMap Value} {m m' : Machine} {f : Failure}
    (h : Evaluation.outcome ⟨fuel, .members ds before, m⟩ = (.error (.failure f), m')) :
    ∃ rs d rest k m₁, ds = rs.map BoundMember.definition ++ d :: rest ∧
      m.Binds fuel rs (k + 1) m₁ ∧
      Evaluation.outcome ⟨k, .optional d.initial, m₁⟩ = (.error (.failure f), m') := by
  induction ds generalizing fuel before m with
  | nil => cases fuel <;> cases h
  | cons d rest ih =>
    cases fuel with
    | zero => cases h
    | succ fuel =>
      change (Expr.evalOptional fuel d.initial >>= _).run m = _ at h
      rw [run_bind_eq] at h
      rcases hd : Evaluation.outcome ⟨fuel, .optional d.initial, m⟩ with ⟨stop | v, m₁⟩
      · rw [show (Expr.evalOptional fuel d.initial).run m = (.error stop, m₁) from hd] at h
        cases h
        exact ⟨[], d, rest, fuel, m, rfl, .nil .., hd⟩
      · rw [show (Expr.evalOptional fuel d.initial).run m = (.ok v, m₁) from hd] at h
        obtain ⟨rs, d', rest', k, m₂, rfl, hbinds, hfails⟩ := ih h
        let r : BoundMember := ⟨d, fuel, m, v, m₁, hd⟩
        exact ⟨r :: rs, d', rest', k, m₂, rfl, .cons r hbinds, hfails⟩

/-- A declaration of a form fails with its members. -/
theorem Stmt.members_fail_of_form {fuel : Nat} {token name : Token} {ds : List Definition}
    {m m' : Machine} {f : Failure}
    (h : Evaluation.outcome ⟨fuel, .stmt (.form token name ds), m⟩ = (.error (.failure f), m')) :
    ∃ k, fuel = k + 1 ∧ Evaluation.outcome ⟨k, .members ds .empty, m.define name.text .none⟩ =
      (.error (.failure f), m') := by
  cases fuel with
  | zero => cases h
  | succ fuel =>
    refine ⟨fuel, rfl, ?_⟩
    change (Definition.evalMembers fuel ds .empty >>= _).run (m.define name.text .none) = _ at h
    rw [run_bind_eq] at h
    rcases hds : Evaluation.outcome ⟨fuel, .members ds .empty, m.define name.text .none⟩ with
      ⟨stop | vs, m₁⟩
    · rw [show (Definition.evalMembers fuel ds .empty).run (m.define name.text .none) =
        (.error stop, m₁) from hds] at h
      cases h
      rfl
    · rw [show (Definition.evalMembers fuel ds .empty).run (m.define name.text .none) =
        (.ok vs, m₁) from hds] at h
      cases h

/-- A variable that is none of the members is given only what the defaults assign to it. -/
theorem BoundMember.findSome?_given? {rs : List BoundMember} {x : String}
    (hx : ∀ r ∈ rs, r.definition.name.text ≠ x) (i : ScopeId) :
    rs.reverse.findSome? (given? i x) =
      Chronicle.assigned? (rs.flatMap (·.default.chronicle)) i x := by
  induction rs with
  | nil => rfl
  | cons r rs ih =>
    obtain ⟨hr, hrs⟩ := List.forall_mem_cons.1 hx
    rw [List.reverse_cons, List.findSome?_append, List.findSome?_singleton, ih hrs,
      List.flatMap_cons, Chronicle.assigned?_append, given?, if_neg hr]

/-- A member that no later one has the name of is given its value, and what later defaults assign to
it. -/
theorem BoundMember.findSome?_given?_append {rs : List BoundMember} (r : BoundMember)
    (hrs : ∀ s ∈ rs, s.definition.name.text ≠ r.definition.name.text)
    (earlier : List BoundMember) (i : ScopeId) :
    (earlier ++ r :: rs).reverse.findSome? (given? i r.definition.name.text) =
      (Chronicle.assigned? (rs.flatMap (·.default.chronicle)) i r.definition.name.text).or
        (some r.value) := by
  have hr : given? i r.definition.name.text r = some r.value := if_pos rfl
  rw [List.reverse_append, List.reverse_cons, List.append_assoc, List.findSome?_append,
    findSome?_given? hrs, List.singleton_append, List.findSome?_cons, hr]

/-- What the scope holds once a default has failed: the assignments of this default come last. -/
theorem Machine.get?_of_form_fails {m m₁ m' : Machine} (hm : m.current < m.store.scopes.size)
    {name : Token} {fuel k : Nat} {rs : List BoundMember} {d : Definition} {f : Failure}
    (hbinds : (m.define name.text .none).Binds fuel rs (k + 1) m₁)
    (hfails : Evaluation.outcome ⟨k, .optional d.initial, m₁⟩ = (.error (.failure f), m'))
    (x : String) :
    m'.store.scopes.get? m.current x =
      (Chronicle.assigned? (Evaluation.chronicle ⟨k, .optional d.initial, m₁⟩) m.current x).or
        ((rs.reverse.findSome? (BoundMember.given? m.current x)).or
          (if x = name.text then some .none else m.store.scopes.get? m.current x)) := by
  have hsize : m.current < (m.define name.text .none).store.scopes.size :=
    hm.trans_eq (Scopes.size_define ..).symm
  have hlast : Evaluation.Tells m.current x ⟨k, .optional d.initial, m₁⟩ :=
    Evaluation.tells (y := ⟨k, .optional d.initial, m₁⟩) trivial
      (Nat.lt_of_lt_of_le hsize hbinds.size_le) x
  have hname : (m.define name.text .none).store.scopes.get? m.current x =
      if x = name.text then some .none else m.store.scopes.get? m.current x := by
    refine (Scopes.get?_define ..).trans ?_
    simp only [hm, true_and, and_true]
  rw [Evaluation.Tells, hfails] at hlast
  rw [← hname, hlast]
  exact congrArg _ (hbinds.get?_eq hsize x)

/-- A declaration of a form that fails has bound the form to `none`, and the members before the
default that fails to their values, and leaves it at that. So the name of the form has lost what it
held. Any other name that is not one of these members holds what it held. What the defaults assign
comes on top of this. -/
theorem Machine.failed_form_is_left {m m' : Machine} (hm : m.current < m.store.scopes.size)
    {fuel : Nat} {token name : Token} {ds : List Definition} {f : Failure}
    (h : Evaluation.outcome ⟨fuel, .stmt (.form token name ds), m⟩ = (.error (.failure f), m')) :
    ∃ (rs : List BoundMember) (d : Definition) (rest : List Definition) (k : Nat) (m₁ : Machine),
      ds = rs.map BoundMember.definition ++ d :: rest ∧
      (m.define name.text .none).Binds (fuel - 1) rs (k + 1) m₁ ∧
      Evaluation.outcome ⟨k, .optional d.initial, m₁⟩ = (.error (.failure f), m') ∧
      let last := Evaluation.chronicle ⟨k, .optional d.initial, m₁⟩
      (∀ x, (∀ r ∈ rs, r.definition.name.text ≠ x) →
        m'.store.scopes.get? m.current x =
          (Chronicle.assigned? (rs.flatMap (·.default.chronicle) ++ last) m.current x).or
            (if x = name.text then some .none else m.store.scopes.get? m.current x)) ∧
      ∀ earlier r later, rs = earlier ++ r :: later →
        (∀ s ∈ later, s.definition.name.text ≠ r.definition.name.text) →
        m'.store.scopes.get? m.current r.definition.name.text =
          (Chronicle.assigned? (later.flatMap (·.default.chronicle) ++ last) m.current
            r.definition.name.text).or (some r.value) := by
  obtain ⟨fuel, rfl, hmembers⟩ := Stmt.members_fail_of_form h
  obtain ⟨rs, d, rest, k, m₁, rfl, hbinds, hfails⟩ := Definition.exists_of_members_fail hmembers
  have hget := Machine.get?_of_form_fails hm hbinds hfails
  refine ⟨rs, d, rest, k, m₁, rfl, hbinds, hfails, fun x hx => ?_, ?_⟩
  · rw [hget, BoundMember.findSome?_given? hx, Chronicle.assigned?_append, Option.or_assoc]
  · rintro earlier r later rfl hlater
    rw [hget, BoundMember.findSome?_given?_append r hlater, Chronicle.assigned?_append,
      Option.or_assoc, Option.or_assoc, Option.some_or]

def missingVariable : Expr := .variable ⟨.identifier, "missing", 2, .null⟩ none

/-- A form, and another of the same name with a default that reads a variable that is not there. -/
def workingForm : Stmt :=
  .form .blank ⟨.identifier, "F", 1, .null⟩
    [⟨.blank, ⟨.identifier, "a", 1, .null⟩, some (.literal .blank (.int 1))⟩]

def brokenForm : Stmt :=
  .form .blank ⟨.identifier, "F", 2, .null⟩
    [⟨.blank, ⟨.identifier, "b", 2, .null⟩, some missingVariable⟩]

theorem brokenForm_loses_type :
    let m := ((Machine.start ⟨fun _ => 0, 0⟩ []).interpret 9 [workingForm]).2
    m.store.scopes.get? m.globals "F" = some (.type (.form 0)) ∧
    ∃ f m', Evaluation.outcome ⟨9, .stmt brokenForm, m⟩ = (.error (.failure f), m') ∧
      m'.store.scopes.get? m.globals "F" = some .none := by
  intro m
  have hm : m.current < m.store.scopes.size := by decide
  have hrun : Evaluation.outcome ⟨9, .stmt brokenForm, m⟩ =
      (.error (.failure ⟨⟨.identifier, "missing", 2, .null⟩, .undefinedVariable "missing", none⟩),
        m.define "F" .none) := by with_unfolding_all rfl
  refine ⟨by with_unfolding_all rfl, _, _, hrun, ?_⟩
  obtain ⟨rs, d, rest, k, m₁, hds, hbinds, -, hothers, -⟩ := Machine.failed_form_is_left hm hrun
  have hnil : ∀ {fuel k : Nat} {m m' : Machine}, m.Binds fuel [] k m' → k = fuel := by
    rintro _ _ _ _ ⟨⟩
    rfl
  -- the first default fails, so no member has been bound
  cases rs with
  | nil =>
    obtain ⟨rfl, -⟩ := List.cons.inj hds
    obtain rfl : k = 7 := Nat.succ.inj (hnil hbinds)
    have hnone : Chronicle.assigned?
        (Evaluation.chronicle ⟨7, .optional (some missingVariable), m₁⟩) m.current "F" = none := rfl
    refine (hothers "F" fun _ h => absurd h List.not_mem_nil).trans ?_
    rw [List.flatMap_nil, List.nil_append, hnone, if_pos rfl]
    rfl
  | cons r rs => simp at hds

end Treescript
