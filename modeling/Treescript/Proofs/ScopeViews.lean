import Treescript.Scope

/-!
# What scope operations change

A scope is seen through its bindings and its outer scope. Defining changes one binding and no outer
scope; adding a scope changes nothing about those that are there.
-/

namespace Treescript

theorem bindEntry_bindEntry {α : Type} (name : String) (u v : α) (entries : List (String × α)) :
    bindEntry name v (bindEntry name u entries) = bindEntry name v entries := by
  induction entries with
  | nil => simp [bindEntry]
  | cons entry rest ih =>
    obtain ⟨k, a⟩ := entry
    by_cases hk : k = name
    · simp [bindEntry, hk]
    · simp [bindEntry, hk, ih]

theorem NameMap.insert_insert {α : Type} (m : NameMap α) (name : String) (u v : α) :
    (m.insert name u).insert name v = m.insert name v :=
  congrArg NameMap.mk (bindEntry_bindEntry name u v m.entries)

namespace Scopes

variable {α : Type} (ss : Scopes α)

@[simp] theorem size_define (id : ScopeId) (name : String) (value : α) :
    (ss.define id name value).size = ss.size := by
  simp [size, define]

@[simp] theorem outer?_define (id i : ScopeId) (name : String) (value : α) :
    (ss.define id name value).outer? i = ss.outer? i := by
  simp only [outer?, define, Array.getElem?_modify]
  by_cases h : id = i
  · subst h
    cases ss.cells[id]? <;> simp
  · simp [h]

theorem get?_define (id i : ScopeId) (name x : String) (value : α) :
    (ss.define id name value).get? i x =
      if i = id ∧ x = name ∧ id < ss.size then some value else ss.get? i x := by
  simp only [get?, define, Array.getElem?_modify, size]
  by_cases h : id = i
  · subst h
    by_cases hi : id < ss.cells.size
    · by_cases hx : x = name <;> simp [hi, hx]
    · simp [hi]
  · have hne : i ≠ id := fun he => h he.symm
    simp [h, hne]

theorem define_define (id : ScopeId) (name : String) (u v : α) :
    (ss.define id name u).define id name v = ss.define id name v := by
  simp only [define, Scopes.mk.injEq]
  refine Array.ext_getElem? fun i => ?_
  simp only [Array.getElem?_modify]
  by_cases h : id = i
  · cases ss.cells[i]? <;> simp [h, NameMap.insert_insert]
  · simp [h]

theorem get?_define_self {id : ScopeId} (h : id < ss.size) (name : String) (value : α) :
    (ss.define id name value).get? id name = some value := by
  simp [get?_define, h]

/-- A binding after a definition is the new one or was there before. -/
theorem get?_define_cases {id i : ScopeId} {name x : String} {value v : α}
    (h : (ss.define id name value).get? i x = some v) :
    (i = id ∧ x = name ∧ v = value) ∨ ss.get? i x = some v := by
  rw [get?_define] at h
  split at h
  · next hc => exact .inl ⟨hc.1, hc.2.1, (Option.some.inj h).symm⟩
  · exact .inr h

theorem isSome_get?_define {id i : ScopeId} {name x : String} {value : α}
    (h : (ss.get? i x).isSome) : ((ss.define id name value).get? i x).isSome := by
  rw [get?_define]
  split
  · rfl
  · exact h

@[simp] theorem size_push (outer : Option ScopeId) : (ss.push outer).size = ss.size + 1 := by
  simp [size, push]

theorem outer?_push_of_lt {i : ScopeId} (h : i < ss.size) (outer : Option ScopeId) :
    (ss.push outer).outer? i = ss.outer? i := by
  have hne : i ≠ ss.cells.size := Nat.ne_of_lt h
  simp only [outer?, push, Array.getElem?_push, hne, if_false]

theorem outer?_push_size {outer : ScopeId} (h : outer < ss.size) :
    (ss.push (some outer)).outer? ss.size = some outer := by
  have ho : outer < ss.cells.size := h
  simp [outer?, push, size, Option.filter, ho]

@[simp] theorem get?_push (outer : Option ScopeId) (i : ScopeId) (x : String) :
    (ss.push outer).get? i x = ss.get? i x := by
  simp only [get?, push, Array.getElem?_push]
  by_cases h : i = ss.cells.size
  · subst h
    simp
  · simp [h]

theorem lt_size_of_get?_eq_some {i : ScopeId} {x : String} {v : α} (h : ss.get? i x = some v) :
    i < ss.size := by
  obtain ⟨s, hs, -⟩ := Option.bind_eq_some_iff.1 h
  exact (Array.getElem?_eq_some_iff.1 hs).1

theorem exists_get?_of_resolve? (i : ScopeId) (x : String) {v : α} (h : ss.resolve? i x = some v) :
    ∃ a, ss.get? a x = some v := by
  induction i using Nat.strongRecOn with
  | ind i ih =>
    rw [resolve?] at h
    split at h
    · next value hv => exact ⟨i, hv.trans h⟩
    · split at h
      · cases h
      · next o ho => exact ih o (outer?_lt ho) h

variable {ss}

/-- Ancestors depend only on the outer scopes of what was there. -/
theorem ancestor?_eq_of_outer? {tt : Scopes α} {n : Nat}
    (h : ∀ i < n, tt.outer? i = ss.outer? i) (k : Nat) {i : ScopeId} (hi : i < n) :
    tt.ancestor? k i = ss.ancestor? k i := by
  induction k generalizing i with
  | zero => rfl
  | succ k ih =>
    rw [ancestor?, ancestor?, h i hi]
    cases ho : ss.outer? i with
    | none => rfl
    | some o => exact ih (Nat.lt_trans (outer?_lt ho) hi)

theorem ancestor?_succ {i o : ScopeId} (h : ss.outer? i = some o) (k : Nat) :
    ss.ancestor? (k + 1) i = ss.ancestor? k o := by
  rw [ancestor?, h, Option.bind_some]

/-- The last hop taken by itself. -/
theorem ancestor?_succ_eq_bind (ss : Scopes α) (k : Nat) (i : ScopeId) :
    ss.ancestor? (k + 1) i = (ss.ancestor? k i).bind ss.outer? := by
  induction k generalizing i with
  | zero => exact Option.bind_fun_some (ss.outer? i)
  | succ k ih =>
    rw [ancestor?, ancestor?, Option.bind_assoc]
    exact congrArg _ (funext ih)

end Scopes

end Treescript
