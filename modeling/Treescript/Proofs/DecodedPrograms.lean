import Treescript.Document.Reader
import Treescript.Proofs.ProperTrees

/-!
# Decoded programs

What reading a document promises about the tree it gives: the tree is proper.
-/

namespace Treescript

namespace Document

/-- Whatever the reading returns has a property. -/
def Yields {α : Type} (Q : α → Prop) (r : Reading α) : Prop :=
  ∀ line a line', r.run line = .ok (a, line') → Q a

namespace Yields

variable {α β : Type} {Q : α → Prop} {R : β → Prop}

protected theorem pure {a : α} (h : Q a) : Yields Q (pure a) := by
  rintro line b line' ⟨⟩
  exact h

protected theorem throw (i : Invalid) : Yields Q (throw i) := by
  rintro line b line' ⟨⟩

theorem any (r : Reading α) : Yields (fun _ => True) r := fun _ _ _ _ => trivial

protected theorem bind {r : Reading α} {f : α → Reading β} (h : Yields Q r)
    (hf : ∀ a, Q a → Yields R (f a)) : Yields R (r >>= f) := by
  intro line b line' hrun
  rw [StateT.run_bind] at hrun
  cases hr : r.run line with
  | error i =>
    rw [hr] at hrun
    cases hrun
  | ok result =>
    rw [hr] at hrun
    exact hf result.1 (h line result.1 result.2 hr) result.2 b line' hrun

protected theorem map {r : Reading α} {f : α → β} (h : Yields Q r) (hf : ∀ a, Q a → R (f a)) :
    Yields R (f <$> r) := by
  rw [map_eq_pure_bind]
  exact h.bind fun a ha => .pure (hf a ha)

/-- A check before the rest, which stops the reading when it fails. -/
theorem guarded {c : Prop} [Decidable c] {stop : Reading Unit} {rest : Unit → Reading β}
    (h : Yields R (rest ())) : Yields R (if c then stop >>= rest else rest ()) := by
  split
  · exact (any stop).bind fun _ _ => h
  · exact h

end Yields

theorem Opened.literal_proper {d : Document} (n : Opened d) : Yields Expr.Proper n.literal := by
  have hlit : ∀ (r : Reading Token) (value : Literal),
      Yields Expr.Proper (do return .literal (← r) value) := fun r value =>
    (Yields.any r).bind fun _ _ => .pure trivial
  rw [Opened.literal]
  cases n.field? "value" with
  | none => exact hlit _ _
  | some c =>
    obtain ⟨value, -⟩ := c
    cases value with
    | bool b => cases b <;> exact hlit _ _
    | int i | float x | text s => exact hlit _ _
    | null | natural n | timestamp | list cs | mapping fields | keyed => exact .throw _

theorem Opened.operator_isIn {d : Document} (n : Opened d) (table : String → Option Operator) :
    Yields (Token.IsIn table) (n.operator table) := by
  rw [Opened.operator]
  split
  · next o ho => exact (Yields.any get).bind fun row _ => .pure ⟨o, ho, rfl⟩
  · exact .throw _

mutual

theorem expression_proper (d : Document) (path : Path) :
    Yields Expr.Proper (expression d path) := by
  rw [expression]
  refine (Yields.any _).bind fun n _ => ?_
  split
  case h_1 => exact n.literal_proper
  case h_2 | h_10 | h_13 | h_14 => exact (Yields.any _).bind fun name _ => .pure trivial
  case h_3 =>
    refine (Yields.any _).bind fun name _ => (Yields.any _).bind fun ⟨value, hlt⟩ _ => ?_
    exact (expression_proper value _).bind fun value hvalue => .pure hvalue
  case h_4 =>
    refine (n.operator_isIn _).bind fun operator ho => (Yields.any _).bind fun ⟨right, hlt⟩ _ => ?_
    exact (expression_proper right _).bind fun right hright => .pure ⟨ho, hright⟩
  case h_5 | h_6 =>
    refine (n.operator_isIn _).bind fun operator ho => (Yields.any _).bind fun ⟨left, hlt⟩ _ => ?_
    refine (expression_proper left _).bind fun left hleft => ?_
    refine (Yields.any _).bind fun ⟨right, hlt⟩ _ => ?_
    exact (expression_proper right _).bind fun right hright => .pure ⟨ho, hleft, hright⟩
  case h_7 =>
    -- a count has no target of its own: this is made from the name
    refine (n.operator_isIn _).bind fun operator ho => ?_
    exact (Yields.any _).bind fun name _ => .pure ⟨ho, none, rfl⟩
  case h_8 =>
    refine (Yields.any _).bind fun ⟨callee, hlt⟩ _ => ?_
    refine (expression_proper callee _).bind fun callee hcallee => ?_
    refine (Yields.any _).bind fun ⟨args, hlt⟩ _ => ?_
    refine (expressions_proper args _ _).bind fun args hargs => ?_
    exact (Yields.any _).bind fun paren _ => .pure ⟨hcallee, hargs⟩
  case h_9 =>
    refine (Yields.any _).bind fun opening _ => (Yields.any _).bind fun ⟨inner, hlt⟩ _ => ?_
    exact (expression_proper inner _).bind fun inner hinner => .pure hinner
  case h_11 =>
    refine (Yields.any _).bind fun ⟨object, hlt⟩ _ => ?_
    refine (expression_proper object _).bind fun object hobject => ?_
    exact (Yields.any _).bind fun name _ => .pure hobject
  case h_12 =>
    refine (Yields.any _).bind fun ⟨object, hlt⟩ _ => ?_
    refine (expression_proper object _).bind fun object hobject => ?_
    refine (Yields.any _).bind fun name _ => (Yields.any _).bind fun ⟨value, hlt⟩ _ => ?_
    exact (expression_proper value _).bind fun value hvalue => .pure ⟨hobject, hvalue⟩
  case h_15 => exact .throw _
termination_by sizeOf d

theorem expressions_proper (ds : List Document) (path : Path) (index : Nat) :
    Yields Expr.ProperList (expressions ds path index) := by
  match ds with
  | [] =>
    rw [expressions]
    exact .pure trivial
  | d :: rest =>
    rw [expressions]
    refine (expression_proper d _).bind fun first hfirst => ?_
    exact (expressions_proper rest path _).bind fun others hothers => .pure ⟨hfirst, hothers⟩
termination_by sizeOf ds

end

namespace Opened

variable {d : Document} (n : Opened d)

theorem requiredExpr_proper (key : String) : Yields Expr.Proper (n.requiredExpr key) :=
  (Yields.any _).bind fun c _ => expression_proper c.1 _

theorem optionalExpr_proper (key : String) : Yields Expr.ProperOptional (n.optionalExpr key) := by
  rw [optionalExpr]
  cases n.field? key with
  | none => exact .pure nofun
  | some c =>
    refine (expression_proper c.1 _).map fun e he => ?_
    rintro _ ⟨⟩
    exact he

theorem definition_proper : Yields (fun d => Expr.ProperOptional d.initial) n.definition := by
  refine (Yields.any _).bind fun token _ => (Yields.any _).bind fun name _ => ?_
  exact (n.optionalExpr_proper _).bind fun initial hinitial => .pure hinitial

end Opened

theorem members_proper (path : Path) (ds : List Document) (index : Nat) :
    Yields Definition.ProperList (members path ds index) := by
  induction ds generalizing index with
  | nil => exact .pure (List.forall_mem_nil _)
  | cons d rest ih =>
    refine (Yields.any _).bind fun n _ => .guarded ?_
    refine n.definition_proper.bind fun first hfirst => ?_
    exact (ih _).bind fun others hothers => .pure (List.forall_mem_cons.2 ⟨hfirst, hothers⟩)

mutual

theorem statement_proper (d : Document) (path : Path) : Yields Stmt.Proper (statement d path) := by
  rw [statement]
  refine (Yields.any _).bind fun n _ => ?_
  split
  case h_1 | h_2 =>
    refine (Yields.any _).bind fun _ _ => (n.requiredExpr_proper _).bind fun value hvalue => ?_
    exact .pure hvalue
  case h_3 => exact n.definition_proper.map fun definition hdefinition => hdefinition
  case h_4 =>
    refine (Yields.any _).bind fun token _ => (Yields.any _).bind fun ⟨body, hlt⟩ _ => ?_
    exact (statements_proper body _ _).bind fun body hbody => .pure hbody
  case h_5 => exact (operation_proper d n).map fun operation hoperation => hoperation
  case h_6 =>
    refine (Yields.any _).bind fun token _ => ?_
    refine (n.requiredExpr_proper _).bind fun condition hcondition => ?_
    refine (Yields.any _).bind fun ⟨branch, hlt⟩ _ => ?_
    refine (statement_proper branch _).bind fun branch hbranch => ?_
    refine (Yields.any _).bind fun ⟨ors, hlt⟩ _ => ?_
    refine (arms_proper ors _ _).bind fun arms harms => ?_
    split
    · exact .pure ⟨hcondition, hbranch, harms, trivial⟩
    · next otherwise hlt _ =>
      refine (statement_proper otherwise _).bind fun otherwise hotherwise => .pure ?_
      exact ⟨hcondition, hbranch, harms, hotherwise⟩
  case h_7 =>
    refine (Yields.any _).bind fun token _ => ?_
    refine (n.requiredExpr_proper _).bind fun condition hcondition => ?_
    refine (Yields.any _).bind fun ⟨body, hlt⟩ _ => ?_
    exact (statement_proper body _).bind fun body hbody => .pure ⟨hcondition, hbody⟩
  case h_8 =>
    refine (Yields.any _).bind fun token _ => (n.optionalExpr_proper _).bind fun value hvalue => ?_
    exact .pure hvalue
  case h_9 =>
    refine (Yields.any _).bind fun token _ => (Yields.any _).bind fun name _ => ?_
    refine (Yields.any _).bind fun ⟨ms, hlt⟩ _ => ?_
    exact (methods_proper ms _ _).bind fun methods hmethods => .pure hmethods
  case h_10 =>
    refine (Yields.any _).bind fun token _ => (Yields.any _).bind fun name _ => ?_
    exact (Yields.any _).bind fun elements _ => .pure trivial
  case h_11 =>
    refine (Yields.any _).bind fun token _ => (Yields.any _).bind fun name _ => ?_
    refine (Yields.any _).bind fun ⟨ms, hlt⟩ _ => ?_
    exact (members_proper _ ms _).bind fun members hmembers => .pure hmembers
  case h_12 => exact .throw _
termination_by 2 * sizeOf d + 1
decreasing_by all_goals omega

theorem operation_proper (d : Document) (n : Opened d) :
    Yields Operation.Proper (operation d n) := by
  rw [operation]
  refine (Yields.any _).bind fun token _ => (Yields.any _).bind fun name _ => ?_
  refine (Yields.any _).bind fun params _ => (Yields.any _).bind fun ⟨body, hlt⟩ _ => ?_
  exact (statements_proper body _ _).bind fun body hbody => .pure hbody
termination_by 2 * sizeOf d
decreasing_by all_goals omega

theorem statements_proper (ds : List Document) (path : Path) (index : Nat) :
    Yields Stmt.ProperList (statements ds path index) := by
  match ds with
  | [] =>
    rw [statements]
    exact .pure trivial
  | d :: rest =>
    rw [statements]
    refine (statement_proper d _).bind fun first hfirst => ?_
    exact (statements_proper rest path _).bind fun others hothers => .pure ⟨hfirst, hothers⟩
termination_by 2 * sizeOf ds
decreasing_by all_goals (rw [List.cons.sizeOf_spec]; omega)

theorem arms_proper (ds : List Document) (path : Path) (index : Nat) :
    Yields Arm.ProperList (arms ds path index) := by
  match ds with
  | [] =>
    rw [arms]
    exact .pure trivial
  | d :: rest =>
    rw [arms]
    refine (Yields.any _).bind fun n _ => (Yields.any _).bind fun token _ => ?_
    refine (n.requiredExpr_proper _).bind fun condition hcondition => ?_
    refine (Yields.any _).bind fun ⟨branch, hlt⟩ _ => ?_
    refine (statement_proper branch _).bind fun branch hbranch => ?_
    refine (arms_proper rest path _).bind fun others hothers => .pure ?_
    exact ⟨hcondition, hbranch, hothers⟩
termination_by 2 * sizeOf ds
decreasing_by all_goals (rw [List.cons.sizeOf_spec]; omega)

theorem methods_proper (ds : List Document) (path : Path) (index : Nat) :
    Yields Operation.ProperList (methods ds path index) := by
  match ds with
  | [] =>
    rw [methods]
    exact .pure trivial
  | d :: rest =>
    rw [methods]
    refine (Yields.any _).bind fun n _ => .guarded ?_
    refine (operation_proper d n).bind fun first hfirst => ?_
    exact (methods_proper rest path _).bind fun others hothers => .pure ⟨hfirst, hothers⟩
termination_by 2 * sizeOf ds
decreasing_by all_goals (rw [List.cons.sizeOf_spec]; omega)

end

theorem program_proper {ds : List Document} {p : Program} (h : program ds = .ok p) : p.Proper := by
  rw [program, StateT.run'_eq] at h
  cases hrun : (statements ds [.key "statements"] 0).run 1 with
  | error i =>
    rw [hrun] at h
    cases h
  | ok result =>
    rw [hrun] at h
    obtain rfl := Except.ok.inj h
    exact statements_proper ds _ 0 1 result.1 result.2 hrun

theorem program_counts {ds : List Document} {p : Program} (h : program ds = .ok p) :
    ∀ n ∈ p.nodes, n.Counted :=
  Stmt.ProperList.counted (program_proper h)

end Document

end Treescript
