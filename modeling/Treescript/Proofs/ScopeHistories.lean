import Mathlib.Data.List.Induction
import Mathlib.Logic.Relation
import Mathlib.Order.Bounds.Basic
import Treescript.Proofs.ScopeViews
import Treescript.Value

/-!
# Histories of scopes

A forest of scopes comes about step by step: scopes are created, inside one that is there or inside
none, and names are defined and assigned to in them. Whatever the steps were, the ways to look up a
name agree: the search along the chain of outer scopes, the look at one scope, and the walk of a
given number of hops, to read or to write.
-/

namespace Treescript

/-- What can be done to a forest of scopes. -/
inductive ScopeAction (α : Type) where
  | create (outer : Option ScopeId)
  | define (id : ScopeId) (name : String) (value : α)
  | assign (id : ScopeId) (name : String) (value : α)
  | assignAt (hops : Nat) (id : ScopeId) (name : String) (value : α)

namespace Scopes

variable {α : Type} (ss : Scopes α)

/-- The chain of outer scopes of `e` leads to `a`. -/
def Leads (e a : ScopeId) : Prop := Relation.ReflTransGen (fun i o => ss.outer? i = some o) e a

/-- One binding of one scope gets a value, and nothing else changes. -/
structure ChangesOnly (ss tt : Scopes α) (id : ScopeId) (name : String) (value : α) : Prop where
  size : tt.size = ss.size
  outer : ∀ i, tt.outer? i = ss.outer? i
  value : tt.get? id name = some value
  others : ∀ i x, ¬(i = id ∧ x = name) → tt.get? i x = ss.get? i x

theorem changesOnly_define {id : ScopeId} (h : id < ss.size) (name : String) (value : α) :
    ss.ChangesOnly (ss.define id name value) id name value where
  size := ss.size_define id name value
  outer i := ss.outer?_define id i name value
  value := ss.get?_define_self h name value
  others i x hne := by
    rw [get?_define, if_neg]
    rintro ⟨hi, hx, -⟩
    exact hne ⟨hi, hx⟩

variable {ss}

theorem outer?_push {outer : Option ScopeId} (h : ∀ o ∈ outer, o < ss.size) (i : ScopeId) :
    (ss.push outer).outer? i = if i = ss.size then outer else ss.outer? i := by
  by_cases hi : i = ss.size
  · subst hi
    cases outer with
    | none => simp [outer?, push, size]
    | some o => simp [outer?_push_size ss (h o rfl)]
  · have hne : i ≠ ss.cells.size := hi
    simp [outer?, push, Array.getElem?_push, hne, hi]

theorem ChangesOnly.isSome_get?_iff {tt : Scopes α} {id : ScopeId} {name : String} {value : α}
    (h : ss.ChangesOnly tt id name value) (i : ScopeId) (x : String) :
    (tt.get? i x).isSome ↔ (ss.get? i x).isSome ∨ (i = id ∧ x = name) := by
  by_cases hc : i = id ∧ x = name
  · obtain ⟨rfl, rfl⟩ := hc
    simp [h.value]
  · simp [h.others i x hc, hc]

/-! ### Chains -/

theorem leads_iff_ancestor? {e a : ScopeId} : ss.Leads e a ↔ ∃ k, ss.ancestor? k e = some a := by
  constructor
  · intro h
    induction h with
    | refl => exact ⟨0, rfl⟩
    | tail _ ho ih =>
      obtain ⟨k, hk⟩ := ih
      exact ⟨k + 1, by rw [ancestor?_succ_eq_bind, hk, Option.bind_some, ho]⟩
  · rintro ⟨k, hk⟩
    induction k generalizing a with
    | zero =>
      obtain rfl := Option.some.inj hk
      exact .refl
    | succ k ih =>
      rw [ancestor?_succ_eq_bind] at hk
      obtain ⟨i, hi, ho⟩ := Option.bind_eq_some_iff.1 hk
      exact (ih hi).tail ho

/-- Every chain of outer scopes comes to an outermost scope. -/
theorem exists_outermost (ss : Scopes α) (e : ScopeId) :
    ∃ n root, ss.ancestor? n e = some root ∧ ss.outer? root = none := by
  induction e using Nat.strongRecOn with
  | ind e ih =>
    cases ho : ss.outer? e with
    | none => exact ⟨0, e, rfl, ho⟩
    | some o =>
      obtain ⟨n, root, hn, hroot⟩ := ih o (outer?_lt ho)
      exact ⟨n + 1, root, (ancestor?_succ ho n).trans hn, hroot⟩

theorem ancestor?_past {e root : ScopeId} {n d : Nat} (hn : ss.ancestor? n e = some root)
    (hroot : ss.outer? root = none) (hd : n < d) : ss.ancestor? d e = none := by
  induction d, hd using Nat.le_induction with
  | base => rw [ancestor?_succ_eq_bind, hn, Option.bind_some, hroot]
  | succ d _ ih => rw [ancestor?_succ_eq_bind, ih, Option.bind_none]

/-! ### Lookups -/

theorem getAt?_succ {e o : ScopeId} (h : ss.outer? e = some o) (k : Nat) (x : String) :
    ss.getAt? (k + 1) e x = ss.getAt? k o x := by
  rw [getAt?, getAt?, ancestor?_succ h]

theorem getAt?_eq_none_of_resolve? {e : ScopeId} {x : String} (h : ss.resolve? e x = none)
    (k : Nat) : ss.getAt? k e x = none := by
  fun_induction Scopes.resolve? ss e x generalizing k with
  | case1 => cases h
  | case2 e hnone ho =>
    cases k with
    | zero => exact hnone
    | succ k => rw [getAt?, ancestor?, ho]; rfl
  | case3 e hnone o ho _ ih =>
    cases k with
    | zero => exact hnone
    | succ k => exact (getAt?_succ ho k x).trans (ih h k)

/-- The search stops at the first scope of the chain that binds the name. -/
theorem exists_isLeast_of_resolve? {e : ScopeId} {x : String} {v : α}
    (h : ss.resolve? e x = some v) :
    ∃ k, IsLeast {k | (ss.getAt? k e x).isSome} k ∧ ss.getAt? k e x = some v := by
  fun_induction Scopes.resolve? ss e x with
  | case1 e value hv =>
    have hat : ss.getAt? 0 e x = some v := hv.trans h
    exact ⟨0, ⟨Option.isSome_iff_exists.2 ⟨v, hat⟩, fun _ _ => Nat.zero_le _⟩, hat⟩
  | case2 => cases h
  | case3 e hnone o ho _ ih =>
    obtain ⟨k, ⟨hmem, hleast⟩, hk⟩ := ih h
    rw [← getAt?_succ ho] at hk
    refine ⟨k + 1, ⟨Option.isSome_iff_exists.2 ⟨v, hk⟩, ?_⟩, hk⟩
    intro j hj
    cases j with
    | zero => exact absurd (hnone ▸ hj : (none : Option α).isSome) nofun
    | succ j =>
      have hfound : (ss.getAt? j o x).isSome := getAt?_succ ho j x ▸ hj
      exact Nat.succ_le_succ (hleast hfound)

theorem resolve?_eq_some_iff {e : ScopeId} {x : String} {v : α} :
    ss.resolve? e x = some v ↔
      ∃ k, IsLeast {k | (ss.getAt? k e x).isSome} k ∧ ss.getAt? k e x = some v := by
  refine ⟨exists_isLeast_of_resolve?, ?_⟩
  rintro ⟨k, hleast, hk⟩
  cases hr : ss.resolve? e x with
  | none =>
    rw [getAt?_eq_none_of_resolve? hr] at hk
    cases hk
  | some u =>
    obtain ⟨j, hj, hu⟩ := exists_isLeast_of_resolve? hr
    rw [hj.unique hleast, hk] at hu
    exact hu.symm

theorem isSome_getAt?_iff {k : Nat} {e : ScopeId} {x : String} :
    (ss.getAt? k e x).isSome ↔ ∃ a, ss.ancestor? k e = some a ∧ (ss.get? a x).isSome := by
  rw [getAt?]
  cases ss.ancestor? k e with
  | none => simp
  | some a => simp

theorem isSome_resolve?_iff {e : ScopeId} {x : String} :
    (ss.resolve? e x).isSome ↔ ∃ a, ss.Leads e a ∧ (ss.get? a x).isSome := by
  constructor
  · intro h
    obtain ⟨v, hv⟩ := Option.isSome_iff_exists.1 h
    obtain ⟨k, hleast, -⟩ := exists_isLeast_of_resolve? hv
    obtain ⟨a, ha, hx⟩ := isSome_getAt?_iff.1 hleast.1
    exact ⟨a, leads_iff_ancestor?.2 ⟨k, ha⟩, hx⟩
  · rintro ⟨a, ha, hx⟩
    obtain ⟨k, hk⟩ := leads_iff_ancestor?.1 ha
    have hat : (ss.getAt? k e x).isSome := isSome_getAt?_iff.2 ⟨a, hk, hx⟩
    rw [Option.isSome_iff_ne_none]
    intro hnone
    rw [getAt?_eq_none_of_resolve? hnone] at hat
    cases hat

/-! ### Assignments -/

/-- An assignment that is accepted changes the one binding that it finds. -/
theorem exists_assignAt? {d : Nat} {e : ScopeId} {x : String} (h : (ss.getAt? d e x).isSome)
    (v : α) : ∃ a tt, ss.assignAt? d e x v = some tt ∧ ss.ancestor? d e = some a ∧
      (ss.get? a x).isSome ∧ ss.ChangesOnly tt a x v := by
  obtain ⟨a, ha, hbound⟩ := isSome_getAt?_iff.1 h
  obtain ⟨u, hu⟩ := Option.isSome_iff_exists.1 hbound
  refine ⟨a, ss.define a x v, ?_, ha, hbound, ?_⟩
  · rw [assignAt?, ha, Option.bind_some, assign?, if_pos hbound]
  · exact ss.changesOnly_define (ss.lt_size_of_get?_eq_some hu) x v

theorem isSome_assignAt?_iff {d : Nat} {e : ScopeId} {x : String} {v : α} :
    (ss.assignAt? d e x v).isSome ↔ (ss.getAt? d e x).isSome := by
  rw [assignAt?, getAt?]
  cases ss.ancestor? d e with
  | none => simp
  | some a => simp [assign?]

end Scopes

namespace ScopeAction

variable {α : Type}

/-- The scope that an action is taken in, none when an outermost scope is created. -/
def place? : ScopeAction α → Option ScopeId
  | create outer => outer
  | define id _ _ | assign id _ _ | assignAt _ id _ _ => some id

/-- Where a scope that an action creates is put. -/
def created? : ScopeAction α → Option (Option ScopeId)
  | create outer => some outer
  | _ => none

/-- The scopes after an action. An assignment that finds no binding leaves them as they are. -/
def perform (ss : Scopes α) : ScopeAction α → Scopes α
  | create none => ss.pushRoot.1
  | create (some outer) => (ss.enter outer).1
  | define id name value => ss.define id name value
  | assign id name value => (ss.assign? id name value).getD ss
  | assignAt hops id name value => (ss.assignAt? hops id name value).getD ss

/-- Actions are taken in scopes that are there. -/
def perform? (ss : Scopes α) (action : ScopeAction α) : Option (Scopes α) :=
  if action.place?.all (· < ss.size) then some (action.perform ss) else none

/-- The forest that a history leads to from no scopes at all. -/
def forest? (history : List (ScopeAction α)) : Option (Scopes α) := history.foldlM perform? .empty

theorem perform?_eq_some_iff {ss tt : Scopes α} {action : ScopeAction α} :
    action.perform? ss = some tt ↔
      (∀ id ∈ action.place?, id < ss.size) ∧ action.perform ss = tt := by
  cases h : action.place? <;> simp [perform?, h]

theorem forest_induction {motive : List (ScopeAction α) → Scopes α → Prop}
    (nil : motive [] .empty)
    (concat : ∀ history ss action, (∀ id ∈ action.place?, id < ss.size) → motive history ss →
      motive (history ++ [action]) (action.perform ss))
    {history : List (ScopeAction α)} {ss : Scopes α} (h : forest? history = some ss) :
    motive history ss := by
  induction history using List.reverseRecOn generalizing ss with
  | nil =>
    obtain rfl := Option.some.inj h
    exact nil
  | append_singleton history action ih =>
    rw [forest?, List.foldlM_append] at h
    obtain ⟨tt, htt, hlast⟩ := Option.bind_eq_some_iff.1 h
    rw [List.foldlM_cons] at hlast
    obtain ⟨uu, huu, hend⟩ := Option.bind_eq_some_iff.1 hlast
    obtain rfl := Option.some.inj hend
    obtain ⟨hplace, rfl⟩ := perform?_eq_some_iff.1 huu
    exact concat history tt action hplace (ih htt)

variable {ss : Scopes α}

theorem perform_create (ss : Scopes α) (outer : Option ScopeId) :
    (create outer).perform ss = ss.push outer := by
  cases outer <;> rfl

theorem changesOnly_assignAt {d : Nat} {e : ScopeId} {x : String} (h : (ss.getAt? d e x).isSome)
    (v : α) : ∃ a, ss.ancestor? d e = some a ∧ (ss.get? a x).isSome ∧
      ss.ChangesOnly ((assignAt d e x v).perform ss) a x v := by
  obtain ⟨a, tt, htt, ha, hbound, hchanges⟩ := Scopes.exists_assignAt? h v
  refine ⟨a, ha, hbound, ?_⟩
  rw [perform, htt, Option.getD_some]
  exact hchanges

theorem perform_assignAt_of_none {d : Nat} {e : ScopeId} {x : String} (h : ss.getAt? d e x = none)
    (v : α) : (assignAt d e x v).perform ss = ss := by
  have hrefused : ss.assignAt? d e x v = none := by
    rw [← Option.not_isSome_iff_eq_none, Scopes.isSome_assignAt?_iff, h]
    exact Bool.false_ne_true
  rw [perform, hrefused, Option.getD_none]

/-- An assignment keeps the forest, and adds no name and takes none away. -/
theorem assignAt_keeps (ss : Scopes α) (d : Nat) (e : ScopeId) (y : String) (v : α) :
    ((assignAt d e y v).perform ss).size = ss.size ∧
      (∀ i, ((assignAt d e y v).perform ss).outer? i = ss.outer? i) ∧
      ∀ i x, (((assignAt d e y v).perform ss).get? i x).isSome ↔ (ss.get? i x).isSome := by
  cases h : ss.getAt? d e y with
  | none =>
    rw [perform_assignAt_of_none h]
    exact ⟨rfl, fun _ => rfl, fun _ _ => Iff.rfl⟩
  | some u =>
    obtain ⟨a, -, hbound, hchanges⟩ := changesOnly_assignAt (Option.isSome_iff_exists.2 ⟨u, h⟩) v
    refine ⟨hchanges.size, hchanges.outer, fun i x => ?_⟩
    rw [hchanges.isSome_get?_iff, or_iff_left_of_imp]
    rintro ⟨rfl, rfl⟩
    exact hbound

theorem perform_assign (ss : Scopes α) (e : ScopeId) (x : String) (v : α) :
    (assign e x v).perform ss = (assignAt 0 e x v).perform ss := rfl

/-- Of all actions only a definition adds a name, and no action takes one away. -/
theorem isSome_get?_perform {action : ScopeAction α} (h : ∀ id ∈ action.place?, id < ss.size)
    (i : ScopeId) (x : String) :
    ((action.perform ss).get? i x).isSome ↔ (ss.get? i x).isSome ∨ ∃ v, action = define i x v := by
  cases action with
  | create outer => simp [perform_create]
  | define id name value =>
    rw [perform, (ss.changesOnly_define (h id rfl) name value).isSome_get?_iff]
    refine or_congr_right ⟨?_, ?_⟩
    · rintro ⟨rfl, rfl⟩
      exact ⟨value, rfl⟩
    · rintro ⟨v, hv⟩
      cases hv
      exact ⟨rfl, rfl⟩
  | assign id name value => simp [perform_assign, (assignAt_keeps ss 0 id name value).2.2 i x]
  | assignAt hops id name value => simp [(assignAt_keeps ss hops id name value).2.2 i x]

/-- A name is bound in a scope if and only if it has been defined there. -/
theorem isSome_get?_iff_mem {history : List (ScopeAction α)} (h : forest? history = some ss)
    (i : ScopeId) (x : String) : (ss.get? i x).isSome ↔ ∃ v, define i x v ∈ history := by
  refine forest_induction
    (motive := fun history ss => (ss.get? i x).isSome ↔ ∃ v, define i x v ∈ history) ?_ ?_ h
  · simp [Scopes.get?, Scopes.empty]
  · intro history ss action hplace ih
    rw [isSome_get?_perform hplace, ih, ← exists_or]
    simp [eq_comm]

/-- Only the creation of a scope changes the forest. -/
theorem outer?_perform (ss : Scopes α) {action : ScopeAction α} (hc : action.created? = none) :
    (action.perform ss).size = ss.size ∧ ∀ i, (action.perform ss).outer? i = ss.outer? i := by
  cases action with
  | create outer => cases hc
  | define id name value => exact ⟨ss.size_define .., fun i => ss.outer?_define ..⟩
  | assign id name value =>
    obtain ⟨hsize, houter, -⟩ := assignAt_keeps ss 0 id name value
    exact ⟨hsize, houter⟩
  | assignAt hops id name value =>
    obtain ⟨hsize, houter, -⟩ := assignAt_keeps ss hops id name value
    exact ⟨hsize, houter⟩

theorem created?_eq_some_iff {action : ScopeAction α} {outer : Option ScopeId} :
    action.created? = some outer ↔ action = create outer := by
  cases action <;> simp [created?]

/-- The forest is the one that was created: every scope is where it was put. -/
theorem outer?_eq_created {history : List (ScopeAction α)} (h : forest? history = some ss) :
    ss.size = (history.filterMap created?).length ∧
      ∀ i, ss.outer? i = ((history.filterMap created?)[i]?).join := by
  refine forest_induction (motive := fun history ss =>
    ss.size = (history.filterMap created?).length ∧
      ∀ i, ss.outer? i = ((history.filterMap created?)[i]?).join) ?_ ?_ h
  · exact ⟨rfl, fun i => by simp [Scopes.outer?, Scopes.empty]⟩
  · rintro history ss action hplace ⟨hsize, houter⟩
    rw [List.filterMap_append]
    cases hc : action.created? with
    | none =>
      obtain ⟨hsize', houter'⟩ := outer?_perform ss hc
      simpa [hc, hsize', houter'] using ⟨hsize, houter⟩
    | some outer =>
      obtain rfl := created?_eq_some_iff.1 hc
      have hinside : ∀ o ∈ outer, o < ss.size := hplace
      refine ⟨by simp [perform_create, created?, hsize], fun i => ?_⟩
      have hnew : [(create outer : ScopeAction α)].filterMap created? = [outer] := rfl
      rw [perform_create, Scopes.outer?_push hinside, hsize, houter, hnew]
      rcases Nat.lt_trichotomy i (history.filterMap created?).length with hi | rfl | hi
      · rw [if_neg hi.ne, List.getElem?_append_left hi]
      · simp
      · have hlast : (history.filterMap created? ++ [outer]).length ≤ i := by
          rw [List.length_append]
          exact hi
        rw [if_neg hi.ne', List.getElem?_eq_none hi.le, List.getElem?_eq_none hlast]

/-- After any history of actions: every scope is where it was put and binds the names that have been
defined in it. Every chain of outer scopes ends, and past its end nothing is found and nothing is
assigned. The search finds what the nearest scope of the chain binds, which is what the walk of
fewest hops that finds anything finds. An assignment is accepted if the name is found where it is
made, and then changes this binding only; otherwise it changes nothing. Only a definition adds a
name, in its own scope. -/
theorem lookups_agree {history : List (ScopeAction α)} {ss : Scopes α}
    (h : forest? history = some ss) :
    (∀ i, ss.outer? i = ((history.filterMap created?)[i]?).join) ∧
    (∀ i x, (ss.get? i x).isSome ↔ ∃ v, define i x v ∈ history) ∧
    (∀ e, ∃ n root, ss.ancestor? n e = some root ∧ ss.outer? root = none ∧
      ∀ d, n < d → ∀ x, ss.getAt? d e x = none ∧ ∀ v, ss.assignAt? d e x v = none) ∧
    (∀ e x, ((ss.resolve? e x).isSome ↔ ∃ a, ss.Leads e a ∧ (ss.get? a x).isSome) ∧
      ∀ v, ss.resolve? e x = some v ↔
        ∃ k, IsLeast {k | (ss.getAt? k e x).isSome} k ∧ ss.getAt? k e x = some v) ∧
    (∀ e x v, ((ss.assign? e x v).isSome ↔ (ss.get? e x).isSome) ∧
      ((ss.get? e x).isSome → ss.ChangesOnly ((assign e x v).perform ss) e x v) ∧
      (ss.get? e x = none → (assign e x v).perform ss = ss)) ∧
    (∀ d e x v, ((ss.assignAt? d e x v).isSome ↔ (ss.getAt? d e x).isSome) ∧
      ((ss.getAt? d e x).isSome → ∃ a, ss.ancestor? d e = some a ∧
        ss.ChangesOnly ((assignAt d e x v).perform ss) a x v) ∧
      (ss.getAt? d e x = none → (assignAt d e x v).perform ss = ss)) ∧
    (∀ action tt, action.perform? ss = some tt →
      (∀ i x, (tt.get? i x).isSome ↔ (ss.get? i x).isSome ∨ ∃ v, action = define i x v) ∧
      ∀ e x v, action = define e x v → ss.ChangesOnly tt e x v) := by
  refine ⟨(outer?_eq_created h).2, isSome_get?_iff_mem h, fun e => ?_,
    fun e x => ⟨Scopes.isSome_resolve?_iff, fun v => Scopes.resolve?_eq_some_iff⟩,
    fun e x v => ⟨Scopes.isSome_assignAt?_iff (d := 0), fun hbound => ?_,
      fun hnone => perform_assignAt_of_none (d := 0) hnone v⟩,
    fun d e x v => ⟨Scopes.isSome_assignAt?_iff, fun hfound => ?_,
      fun hnone => perform_assignAt_of_none hnone v⟩, fun action tt htt => ?_⟩
  · obtain ⟨n, root, hn, hroot⟩ := ss.exists_outermost e
    refine ⟨n, root, hn, hroot, fun d hd x => ?_⟩
    have hpast := Scopes.ancestor?_past hn hroot hd
    simp [Scopes.getAt?, Scopes.assignAt?, hpast]
  · -- the scope no hops out is the scope itself
    obtain ⟨a, ha, -, hchanges⟩ := changesOnly_assignAt (d := 0) hbound v
    obtain rfl := Option.some.inj ha
    exact hchanges
  · obtain ⟨a, ha, -, hchanges⟩ := changesOnly_assignAt hfound v
    exact ⟨a, ha, hchanges⟩
  · obtain ⟨hplace, rfl⟩ := perform?_eq_some_iff.1 htt
    refine ⟨isSome_get?_perform hplace, ?_⟩
    rintro e x v rfl
    exact ss.changesOnly_define (hplace e rfl) x v

end ScopeAction

/-- Two scopes in one. The first of them assigns to a name of the outer scope, and tries to assign
to a name that only the second defines. -/
def siblings : List (ScopeAction Value) :=
  [.create none, .create (some 0), .create (some 0), .define 0 "a" (.bool false),
    .define 2 "b" .none, .assignAt 1 1 "a" (.bool true), .assign 1 "b" (.bool true)]

theorem siblings_lookups : ∃ ss, ScopeAction.forest? siblings = some ss ∧
    ss.outer? 2 = some 0 ∧ ss.get? 1 "b" = none ∧ ss.resolve? 2 "a" = some (.bool true) ∧
    ss.assign? 1 "a" .none = none := by
  have h : ScopeAction.forest? siblings = some _ := rfl
  obtain ⟨houter, hbinds, -, hresolve, hassign, -⟩ := ScopeAction.lookups_agree h
  refine ⟨_, h, (houter 2).trans rfl, ?_, ((hresolve 2 "a").2 _).2 ⟨1, ⟨rfl, ?_⟩, rfl⟩, ?_⟩
  · rw [← Option.not_isSome_iff_eq_none, hbinds]
    simp [siblings]
  · intro k hk
    cases k with
    | zero => exact absurd hk (by decide)
    | succ k => exact Nat.succ_le_succ k.zero_le
  · rw [← Option.not_isSome_iff_eq_none, (hassign 1 "a" .none).1, hbinds]
    simp [siblings]

end Treescript
