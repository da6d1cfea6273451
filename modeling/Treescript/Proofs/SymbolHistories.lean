import Mathlib.Data.List.Induction
import Mathlib.Order.Bounds.Basic
import Treescript.Symbols

/-!
# Histories of symbol scopes

Symbol scopes are entered and left, and names are declared and defined in the innermost of them. The
scopes that are open are a stack: each was entered at one point of the history, holds the names that
were put into it since, and finds the scopes around it as they were then when it is left.
-/

namespace Treescript

/-- What can be done to the open scopes. -/
inductive SymbolAction where
  | enter
  | exit
  | declare (symbol : Symbol)
  | define (name : String)
  deriving DecidableEq

namespace SymbolAction

/-- The name that an action puts into the innermost scope. -/
def name? : SymbolAction → Option String
  | declare symbol => some symbol.name
  | define name => some name
  | _ => none

/-- The open scopes after an action. At top level there is no scope to leave. -/
def perform? (ss : Symbols) : SymbolAction → Option Symbols
  | enter => some ss.enter
  | exit => if ss.isGlobal then none else some ss.exit
  | declare symbol => some (ss.declare symbol)
  | define name => some (ss.define name)

/-- The actions leave no scope but those they enter, and `k` of these are open after them. -/
structure Opens (k : Nat) (actions : List SymbolAction) : Prop where
  entered : actions.count enter = actions.count exit + k
  kept : ∀ part, part <+: actions → part.count exit ≤ part.count enter

/-- Every scope that the actions enter they leave, and no other. -/
def Balanced (actions : List SymbolAction) : Prop := Opens 0 actions

/-- The actions put a name into the scope that is innermost before them. -/
def Puts (x : String) (actions : List SymbolAction) : Prop :=
  ∃ before action rest, actions = before ++ action :: rest ∧ Balanced before ∧
    action.name? = some x

theorem opens_nil : Opens 0 [] where
  entered := rfl
  kept part h := by simp [List.prefix_nil.1 h]

theorem Opens.unique {j k : Nat} {actions : List SymbolAction} (h : Opens j actions)
    (h' : Opens k actions) : j = k := Nat.add_left_cancel (h.entered.symm.trans h'.entered)

theorem Opens.part {k : Nat} {actions part : List SymbolAction} (h : Opens k actions)
    (hpart : part <+: actions) : ∃ j, Opens j part :=
  ⟨part.count .enter - part.count .exit, (Nat.add_sub_cancel' (h.kept part hpart)).symm,
    fun before hbefore => h.kept before (hbefore.trans hpart)⟩

theorem opens_concat_iff {k : Nat} {actions : List SymbolAction} {action : SymbolAction} :
    Opens k (actions ++ [action]) ↔
      ∃ j, Opens j actions ∧ j + [action].count enter = k + [action].count exit := by
  constructor
  · intro h
    obtain ⟨j, hj⟩ := h.part (List.prefix_append actions [action])
    have hall := h.entered
    have hbefore := hj.entered
    rw [List.count_append, List.count_append] at hall
    exact ⟨j, hj, by omega⟩
  · rintro ⟨j, ⟨hentered, hkept⟩, hj⟩
    have hcount : (actions ++ [action]).count enter = (actions ++ [action]).count exit + k := by
      rw [List.count_append, List.count_append]
      omega
    refine ⟨hcount, fun part h => ?_⟩
    rcases List.prefix_concat_iff.1 h with rfl | h
    · omega
    · exact hkept part h

theorem Opens.enter {k : Nat} {actions : List SymbolAction} (h : Opens k actions) :
    Opens (k + 1) (actions ++ [.enter]) := opens_concat_iff.2 ⟨k, h, rfl⟩

theorem Opens.exit {k : Nat} {actions : List SymbolAction} (h : Opens (k + 1) actions) :
    Opens k (actions ++ [.exit]) := opens_concat_iff.2 ⟨k + 1, h, rfl⟩

theorem count_of_name? {action : SymbolAction} {x : String} (h : action.name? = some x) :
    [action].count .enter = 0 ∧ [action].count .exit = 0 := by
  cases action with
  | enter => cases h
  | exit => cases h
  | declare symbol => exact ⟨rfl, rfl⟩
  | define name => exact ⟨rfl, rfl⟩

theorem Opens.put {k : Nat} {actions : List SymbolAction} {action : SymbolAction} {x : String}
    (h : Opens k actions) (hx : action.name? = some x) : Opens k (actions ++ [action]) := by
  obtain ⟨henter, hexit⟩ := count_of_name? hx
  exact opens_concat_iff.2 ⟨k, h, by rw [henter, hexit]⟩

/-- Every way to go on by one action. -/
theorem Opens.concat_cases {k : Nat} {actions : List SymbolAction} {action : SymbolAction}
    (h : Opens k (actions ++ [action])) :
    (action = .enter ∧ ∃ j, k = j + 1 ∧ Opens j actions) ∨
    (action = .exit ∧ Opens (k + 1) actions) ∨
    ((∃ x, action.name? = some x) ∧ Opens k actions) := by
  obtain ⟨j, hj, hcount⟩ := opens_concat_iff.1 h
  cases action with
  | enter => exact .inl ⟨rfl, j, hcount.symm, hj⟩
  | exit =>
    obtain rfl : j = k + 1 := hcount
    exact .inr (.inl ⟨rfl, hj⟩)
  | declare symbol =>
    obtain rfl : j = k := hcount
    exact .inr (.inr ⟨⟨symbol.name, rfl⟩, hj⟩)
  | define name =>
    obtain rfl : j = k := hcount
    exact .inr (.inr ⟨⟨name, rfl⟩, hj⟩)

theorem Opens.append {j k : Nat} {first second : List SymbolAction} (h : Opens j first)
    (h' : Opens k second) : Opens (j + k) (first ++ second) := by
  induction second using List.reverseRecOn generalizing k with
  | nil =>
    obtain rfl : k = 0 := by simpa using h'.entered.symm
    simpa using h
  | append_singleton second action ih =>
    obtain ⟨i, hi, hcount⟩ := opens_concat_iff.1 h'
    rw [← List.append_assoc, opens_concat_iff]
    exact ⟨j + i, ih hi, by omega⟩

theorem puts_concat_iff {x : String} {actions : List SymbolAction} {action : SymbolAction} :
    Puts x (actions ++ [action]) ↔
      Puts x actions ∨ (Balanced actions ∧ action.name? = some x) := by
  constructor
  · rintro ⟨before, put, rest, heq, hbefore, hx⟩
    rcases List.eq_nil_or_concat rest with rfl | ⟨rest, last, rfl⟩
    · obtain ⟨rfl, hlast⟩ := List.append_inj' heq rfl
      obtain rfl : action = put := by simpa using hlast
      exact .inr ⟨hbefore, hx⟩
    · rw [List.concat_eq_append, ← List.cons_append, ← List.append_assoc] at heq
      obtain ⟨rfl, -⟩ := List.append_inj' heq rfl
      exact .inl ⟨before, put, rest, rfl, hbefore, hx⟩
  · rintro (⟨before, put, rest, rfl, hbefore, hx⟩ | ⟨hbalanced, hx⟩)
    · exact ⟨before, put, rest ++ [action], by simp, hbefore, hx⟩
    · exact ⟨actions, action, [], rfl, hbalanced, hx⟩

theorem not_puts_nil (x : String) : ¬Puts x [] := by
  rintro ⟨before, action, rest, heq, -⟩
  simp at heq

theorem perform?_cons_of_name? {action : SymbolAction} {x : String} (h : action.name? = some x)
    (scope : SymbolScope) (outer : Symbols) :
    ∃ symbol, action.perform? (scope :: outer) = some (scope.insert x symbol :: outer) := by
  cases action with
  | enter => cases h
  | exit => cases h
  | declare symbol =>
    obtain rfl : symbol.name = x := Option.some.inj h
    exact ⟨{ symbol with defined := false }, rfl⟩
  | define name =>
    obtain rfl : name = x := Option.some.inj h
    exact ⟨_, rfl⟩

end SymbolAction

open SymbolAction

namespace Symbols

variable {ss : Symbols} {actions history : List SymbolAction}

/-- The open scopes after some actions, none if one of them cannot be taken. -/
def after? (ss : Symbols) (actions : List SymbolAction) : Option Symbols :=
  actions.foldlM SymbolAction.perform? ss

theorem after?_append (ss : Symbols) (first second : List SymbolAction) :
    ss.after? (first ++ second) = (ss.after? first).bind (after? · second) :=
  List.foldlM_append

theorem after?_concat (ss : Symbols) (actions : List SymbolAction) (action : SymbolAction) :
    ss.after? (actions ++ [action]) = (ss.after? actions).bind action.perform? := by
  rw [after?_append]
  congr 1
  funext tt
  simp [after?]

/-- Actions that leave no scope from before act on the innermost of these and on none further out.
It gains the names that they put into it. -/
theorem after?_cons_of_opens {k : Nat} (h : Opens k actions) (scope : SymbolScope)
    (outer : Symbols) :
    ∃ inner scope', after? (scope :: outer) actions = some (inner ++ scope' :: outer) ∧
      inner.length = k ∧
      ∀ x, (scope'.get? x).isSome ↔ (scope.get? x).isSome ∨ Puts x actions := by
  induction actions using List.reverseRecOn generalizing k with
  | nil =>
    obtain rfl : k = 0 := by simpa using h.entered.symm
    exact ⟨[], scope, rfl, rfl, fun x => by simp [not_puts_nil]⟩
  | append_singleton actions action ih =>
    simp only [after?_concat, puts_concat_iff]
    rcases h.concat_cases with ⟨rfl, j, rfl, hj⟩ | ⟨rfl, hj⟩ | ⟨⟨name, hname⟩, hj⟩
    · obtain ⟨inner, scope', hrun, hlen, hputs⟩ := ih hj
      rw [hrun]
      exact ⟨.empty :: inner, scope', rfl, by rw [List.length_cons, hlen],
        fun x => by simp [hputs, name?]⟩
    · obtain ⟨inner, scope', hrun, hlen, hputs⟩ := ih hj
      obtain ⟨left, inner, rfl⟩ := List.exists_cons_of_length_eq_add_one hlen
      rw [hrun]
      exact ⟨inner, scope', rfl, Nat.succ.inj hlen, fun x => by simp [hputs, name?]⟩
    · obtain ⟨inner, scope', hrun, hlen, hputs⟩ := ih hj
      rw [hrun, Option.bind_some]
      cases inner with
      | nil =>
        -- no scope has been entered since, so the name goes into this one
        obtain ⟨symbol, hperform⟩ := perform?_cons_of_name? hname scope' outer
        obtain rfl : k = 0 := hlen.symm
        have hbalanced : Balanced actions := hj
        refine ⟨[], scope'.insert name symbol, hperform, rfl, fun x => ?_⟩
        rw [NameMap.get?_insert, hname]
        by_cases hx : x = name
        · simp [hx, hbalanced]
        · have hne : name ≠ x := fun h => hx h.symm
          simp [hx, hne, hputs]
      | cons first inner =>
        obtain ⟨symbol, hperform⟩ := perform?_cons_of_name? hname first (inner ++ scope' :: outer)
        have hopen : ¬Balanced actions := fun hb => by
          rw [hj.unique hb] at hlen
          cases hlen
        exact ⟨first.insert name symbol :: inner, scope', hperform, hlen,
          fun x => by simp [hputs, hopen]⟩

/-- The scope `k` levels out has the name. -/
def HoldsAt (ss : Symbols) (k : Nat) (x : String) : Prop :=
  ∃ scope, ss[k]? = some scope ∧ (scope.get? x).isSome

@[simp] theorem holdsAt_zero {scope : SymbolScope} {outer : Symbols} {x : String} :
    HoldsAt (scope :: outer) 0 x ↔ (scope.get? x).isSome := by
  simp [HoldsAt]

@[simp] theorem holdsAt_succ {scope : SymbolScope} {outer : Symbols} {k : Nat} {x : String} :
    HoldsAt (scope :: outer) (k + 1) x ↔ HoldsAt outer k x := by
  simp [HoldsAt]

theorem not_holdsAt_of_resolve? {x : String} (h : ss.resolve? x = none) (k : Nat) :
    ¬ss.HoldsAt k x := by
  induction ss generalizing k with
  | nil => simp [HoldsAt]
  | cons scope outer ih =>
    rw [resolve?] at h
    cases hs : scope.get? x with
    | some symbol =>
      rw [hs] at h
      cases h
    | none =>
      rw [hs] at h
      cases k with
      | zero => simp [hs]
      | succ k =>
        rw [holdsAt_succ]
        exact ih (Option.map_eq_none_iff.1 h) k

theorem isLeast_of_resolve? {x : String} {symbol : Symbol} {k : Nat}
    (h : ss.resolve? x = some (symbol, k)) :
    IsLeast {k | ss.HoldsAt k x} k ∧ current? (ss.drop k) x = some symbol := by
  induction ss generalizing k with
  | nil => cases h
  | cons scope outer ih =>
    rw [resolve?] at h
    cases hs : scope.get? x with
    | some found =>
      rw [hs] at h
      cases h
      have hholds : HoldsAt (scope :: outer) 0 x := by simp [hs]
      exact ⟨⟨hholds, fun _ _ => Nat.zero_le _⟩, hs⟩
    | none =>
      rw [hs] at h
      obtain ⟨⟨found, j⟩, hfound, heq⟩ := Option.map_eq_some_iff.1 h
      cases heq
      obtain ⟨⟨hmem, hleast⟩, hcurrent⟩ := ih hfound
      refine ⟨⟨holdsAt_succ.2 hmem, fun i hi => ?_⟩, hcurrent⟩
      cases i with
      | zero => simp [hs] at hi
      | succ i => exact Nat.succ_le_succ (hleast (holdsAt_succ.1 hi))

theorem resolve?_eq_some_iff {x : String} {symbol : Symbol} {k : Nat} :
    ss.resolve? x = some (symbol, k) ↔
      IsLeast {k | ss.HoldsAt k x} k ∧ current? (ss.drop k) x = some symbol := by
  refine ⟨isLeast_of_resolve?, ?_⟩
  rintro ⟨hleast, hcurrent⟩
  cases hr : ss.resolve? x with
  | none => exact absurd hleast.1 (not_holdsAt_of_resolve? hr k)
  | some found =>
    obtain ⟨symbol', k'⟩ := found
    obtain ⟨hleast', hcurrent'⟩ := isLeast_of_resolve? hr
    obtain rfl := hleast'.unique hleast
    rw [hcurrent] at hcurrent'
    cases hcurrent'
    rfl

end Symbols

end Treescript
