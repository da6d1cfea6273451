import Treescript.Proofs.Annotation
import Treescript.Tree.Walk

/-!
# Proper trees

A proper tree has no holes, its operators are those of the tables, its arms stand in conditionals
only, and its counts write the variables that they read. Numbers of hops play no part in this.
-/

namespace Treescript

/-- The token has a word of the table, and stands for the operator that the word spells. -/
def Token.IsIn (table : String → Option Operator) (t : Token) : Prop :=
  ∃ o, table t.text = some o ∧ t.kind = .operator o

mutual

def Expr.Proper : Expr → Prop
  | .hole => False
  | .literal .. | .variable .. | .self .. | .parent _ | .global _ => True
  | .assign _ value _ => value.Proper
  | .unary operator right => operator.IsIn Operator.unary? ∧ right.Proper
  | .binary left operator right => operator.IsIn Operator.binary? ∧ left.Proper ∧ right.Proper
  | .logical left operator right => operator.IsIn Operator.logical? ∧ left.Proper ∧ right.Proper
  | .count operator target name _ =>
    operator.IsIn Operator.count? ∧ ∃ hops, target = .variable name hops
  | .call callee _ args => callee.Proper ∧ Expr.ProperList args
  | .group _ inner => inner.Proper
  | .get object _ => object.Proper
  | .set object _ value => object.Proper ∧ value.Proper

def Expr.ProperList : List Expr → Prop
  | [] => True
  | e :: es => e.Proper ∧ Expr.ProperList es

end

def Expr.ProperOptional (e? : Option Expr) : Prop := ∀ e ∈ e?, e.Proper

def Definition.ProperList (ds : List Definition) : Prop := ∀ d ∈ ds, Expr.ProperOptional d.initial

mutual

def Stmt.Proper : Stmt → Prop
  | .hole | .arm _ => False
  | .enum .. => True
  | .expression _ value | .print _ value => value.Proper
  | .define d => Expr.ProperOptional d.initial
  | .block _ body => Stmt.ProperList body
  | .operation o => o.Proper
  | .conditional _ condition branch arms otherwise =>
    condition.Proper ∧ branch.Proper ∧ Arm.ProperList arms ∧ Stmt.ProperOptional otherwise
  | .loop _ condition body => condition.Proper ∧ body.Proper
  | .return _ value => Expr.ProperOptional value
  | .object _ _ methods => Operation.ProperList methods
  | .form _ _ members => Definition.ProperList members

def Stmt.ProperOptional : Option Stmt → Prop
  | none => True
  | some s => s.Proper

def Stmt.ProperList : List Stmt → Prop
  | [] => True
  | s :: ss => s.Proper ∧ Stmt.ProperList ss

def Operation.Proper : Operation → Prop
  | ⟨_, _, _, body⟩ => Stmt.ProperList body

def Operation.ProperList : List Operation → Prop
  | [] => True
  | o :: os => o.Proper ∧ Operation.ProperList os

def Arm.ProperList : List Arm → Prop
  | [] => True
  | ⟨_, condition, branch⟩ :: rest => condition.Proper ∧ branch.Proper ∧ Arm.ProperList rest

end

theorem Operation.Proper.body {o : Operation} (h : o.Proper) : Stmt.ProperList o.body := by
  cases o
  exact h

def Program.Proper (p : Program) : Prop := Stmt.ProperList p

/-- The target of a count is the variable that it writes. -/
def Node.Counted : Node → Prop
  | .expr (.count _ target name _) => ∃ hops, target = .variable name hops
  | _ => True

mutual

theorem Expr.Proper.counted {e : Expr} (h : e.Proper) : ∀ n ∈ e.nodes, n.Counted := by
  match e with
  | .hole => exact h.elim
  | .literal .. | .variable .. | .self .. | .parent _ | .global _ =>
    exact List.forall_mem_singleton.2 trivial
  | .assign _ value _ => exact List.forall_mem_cons.2 ⟨trivial, Expr.Proper.counted h⟩
  | .unary _ right => exact List.forall_mem_cons.2 ⟨trivial, Expr.Proper.counted h.2⟩
  | .binary left _ right | .logical left _ right =>
    refine List.forall_mem_cons.2 ⟨trivial, List.forall_mem_append.2 ⟨?_, ?_⟩⟩
    · exact Expr.Proper.counted h.2.1
    · exact Expr.Proper.counted h.2.2
  | .count _ _ _ _ =>
    -- the target is a variable, which has no nodes below it
    obtain ⟨hops, rfl⟩ := h.2
    exact List.forall_mem_cons.2 ⟨⟨hops, rfl⟩, List.forall_mem_singleton.2 trivial⟩
  | .call callee _ args =>
    refine List.forall_mem_cons.2 ⟨trivial, List.forall_mem_append.2 ⟨?_, ?_⟩⟩
    · exact Expr.Proper.counted h.1
    · exact Expr.ProperList.counted h.2
  | .group _ inner => exact List.forall_mem_cons.2 ⟨trivial, Expr.Proper.counted h⟩
  | .get object _ => exact List.forall_mem_cons.2 ⟨trivial, Expr.Proper.counted h⟩
  | .set object _ value =>
    refine List.forall_mem_cons.2 ⟨trivial, List.forall_mem_append.2 ⟨?_, ?_⟩⟩
    · exact Expr.Proper.counted h.1
    · exact Expr.Proper.counted h.2

theorem Expr.ProperList.counted {es : List Expr} (h : Expr.ProperList es) :
    ∀ n ∈ Expr.nodesOfList es, n.Counted := by
  match es with
  | [] => exact List.forall_mem_nil _
  | e :: es =>
    exact List.forall_mem_append.2 ⟨Expr.Proper.counted h.1, Expr.ProperList.counted h.2⟩

end

theorem Expr.ProperOptional.counted {e? : Option Expr} (h : Expr.ProperOptional e?) :
    ∀ n ∈ e?.toList.flatMap Expr.nodes, n.Counted := by
  cases e? with
  | none => exact List.forall_mem_nil _
  | some e =>
    simp only [Option.toList_some, List.flatMap_cons, List.flatMap_nil, List.append_nil]
    exact (h e rfl).counted

theorem Definition.ProperList.counted {ds : List Definition} (h : Definition.ProperList ds) :
    ∀ n ∈ ds.flatMap Definition.nodes, n.Counted := by
  intro n hn
  obtain ⟨d, hd, hn⟩ := List.mem_flatMap.1 hn
  rcases List.mem_cons.1 hn with rfl | hn
  · trivial
  · exact (h d hd).counted n hn

mutual

theorem Stmt.Proper.counted {s : Stmt} (h : s.Proper) : ∀ n ∈ s.nodes, n.Counted := by
  match s with
  | .hole | .arm _ => exact h.elim
  | .enum .. => exact List.forall_mem_singleton.2 trivial
  | .expression _ value => exact List.forall_mem_cons.2 ⟨trivial, Expr.Proper.counted h⟩
  | .print _ value => exact List.forall_mem_cons.2 ⟨trivial, Expr.Proper.counted h⟩
  | .define d => exact List.forall_mem_cons.2 ⟨trivial, Expr.ProperOptional.counted h⟩
  | .block _ body => exact List.forall_mem_cons.2 ⟨trivial, Stmt.ProperList.counted h⟩
  | .operation o => exact Operation.Proper.counted h
  | .conditional _ condition branch arms otherwise =>
    obtain ⟨hcondition, hbranch, harms, hotherwise⟩ := h
    have hparts := List.forall_mem_append.2 ⟨List.forall_mem_append.2
      ⟨hcondition.counted, Stmt.Proper.counted hbranch⟩, Arm.ProperList.counted harms⟩
    cases otherwise with
    | none =>
      exact List.forall_mem_cons.2
        ⟨trivial, List.forall_mem_append.2 ⟨hparts, List.forall_mem_nil _⟩⟩
    | some s =>
      exact List.forall_mem_cons.2
        ⟨trivial, List.forall_mem_append.2 ⟨hparts, Stmt.Proper.counted hotherwise⟩⟩
  | .loop _ condition body =>
    refine List.forall_mem_cons.2 ⟨trivial, List.forall_mem_append.2 ⟨?_, ?_⟩⟩
    · exact h.1.counted
    · exact Stmt.Proper.counted h.2
  | .return _ value => exact List.forall_mem_cons.2 ⟨trivial, Expr.ProperOptional.counted h⟩
  | .object _ _ methods => exact List.forall_mem_cons.2 ⟨trivial, Operation.ProperList.counted h⟩
  | .form _ _ members => exact List.forall_mem_cons.2 ⟨trivial, Definition.ProperList.counted h⟩

theorem Stmt.ProperList.counted {ss : List Stmt} (h : Stmt.ProperList ss) :
    ∀ n ∈ Stmt.nodesOfList ss, n.Counted := by
  match ss with
  | [] => exact List.forall_mem_nil _
  | s :: ss =>
    exact List.forall_mem_append.2 ⟨Stmt.Proper.counted h.1, Stmt.ProperList.counted h.2⟩

theorem Operation.Proper.counted {o : Operation} (h : o.Proper) : ∀ n ∈ o.nodes, n.Counted := by
  match o with
  | ⟨_, _, _, body⟩ => exact List.forall_mem_cons.2 ⟨trivial, Stmt.ProperList.counted h⟩

theorem Operation.ProperList.counted {os : List Operation} (h : Operation.ProperList os) :
    ∀ n ∈ Operation.nodesOfList os, n.Counted := by
  match os with
  | [] => exact List.forall_mem_nil _
  | o :: os =>
    exact List.forall_mem_append.2 ⟨Operation.Proper.counted h.1, Operation.ProperList.counted h.2⟩

theorem Arm.ProperList.counted {as : List Arm} (h : Arm.ProperList as) :
    ∀ n ∈ Arm.nodesOfList as, n.Counted := by
  match as with
  | [] => exact List.forall_mem_nil _
  | ⟨_, condition, branch⟩ :: rest =>
    obtain ⟨hcondition, hbranch, hrest⟩ := h
    refine List.forall_mem_append.2 ⟨List.forall_mem_cons.2 ⟨trivial, List.forall_mem_append.2
      ⟨hcondition.counted, ?_⟩⟩, ?_⟩
    · exact Stmt.Proper.counted hbranch
    · exact Arm.ProperList.counted hrest

end

mutual

theorem Expr.proper_annotate (look : Numbering) (P : Place) (e : Expr) :
    (e.annotate look P).Proper ↔ e.Proper := by
  match e with
  | .hole | .literal .. | .variable .. | .self .. | .parent _ | .global _ => exact .rfl
  | .assign _ value _ => exact Expr.proper_annotate look P value
  | .unary _ right => exact and_congr_right' (Expr.proper_annotate look P right)
  | .binary left _ right | .logical left _ right =>
    exact and_congr_right' (and_congr (Expr.proper_annotate look P left)
      (Expr.proper_annotate look P right))
  | .count _ target name _ =>
    refine and_congr_right' ?_
    cases target <;> simp [Expr.annotate]
  | .call callee _ args =>
    exact and_congr (Expr.proper_annotate look P callee) (Expr.properList_annotate look P args)
  | .group _ inner => exact Expr.proper_annotate look P inner
  | .get object _ => exact Expr.proper_annotate look P object
  | .set object _ value =>
    exact and_congr (Expr.proper_annotate look P object) (Expr.proper_annotate look P value)

theorem Expr.properList_annotate (look : Numbering) (P : Place) (es : List Expr) :
    Expr.ProperList (Expr.annotateList look P es) ↔ Expr.ProperList es := by
  match es with
  | [] => exact .rfl
  | e :: es =>
    exact and_congr (Expr.proper_annotate look P e) (Expr.properList_annotate look P es)

end

theorem Expr.properOptional_annotate (look : Numbering) (P : Place) (e? : Option Expr) :
    Expr.ProperOptional (e?.map (·.annotate look P)) ↔ Expr.ProperOptional e? := by
  cases e? <;> simp [Expr.ProperOptional, Expr.proper_annotate]

theorem Definition.properList_annotate (look : Numbering) (P : Place) (ds : List Definition) :
    Definition.ProperList (Definition.annotateMembers look P ds) ↔ Definition.ProperList ds := by
  induction ds generalizing P with
  | nil => exact .rfl
  | cons d ds ih =>
    simp only [Definition.ProperList] at ih
    simp only [Definition.ProperList, Definition.annotateMembers, Definition.annotate,
      List.forall_mem_cons, Expr.properOptional_annotate, ih]

mutual

theorem Stmt.proper_annotate (look : Numbering) (P : Place) (s : Stmt) :
    (s.annotate look P).Proper ↔ s.Proper := by
  match s with
  | .hole | .enum .. => exact .rfl
  | .arm _ => exact .rfl
  | .expression _ value => exact value.proper_annotate look P
  | .print _ value => exact value.proper_annotate look P
  | .define d => exact Expr.properOptional_annotate look _ d.initial
  | .block _ body => exact Stmt.properList_annotate look _ body
  | .operation o => exact Operation.proper_annotate look _ o
  | .conditional _ condition branch arms none =>
    exact and_congr (condition.proper_annotate look P) (and_congr
      (Stmt.proper_annotate look _ branch) (and_congr_left' (Arm.properList_annotate look _ arms)))
  | .conditional _ condition branch arms (some otherwise) =>
    exact and_congr (condition.proper_annotate look P) (and_congr
      (Stmt.proper_annotate look _ branch) (and_congr (Arm.properList_annotate look _ arms)
        (Stmt.proper_annotate look _ otherwise)))
  | .loop _ condition body =>
    exact and_congr (condition.proper_annotate look P) (Stmt.proper_annotate look _ body)
  | .return _ value => exact Expr.properOptional_annotate look P value
  | .object _ _ methods => exact Operation.properList_annotate look _ methods
  | .form _ _ members => exact Definition.properList_annotate look _ members

theorem Stmt.properList_annotate (look : Numbering) (P : Place) (ss : List Stmt) :
    Stmt.ProperList (Stmt.annotateList look P ss) ↔ Stmt.ProperList ss := by
  match ss with
  | [] => exact .rfl
  | s :: ss =>
    exact and_congr (Stmt.proper_annotate look _ s) (Stmt.properList_annotate look _ ss)

theorem Operation.proper_annotate (look : Numbering) (P : Place) (o : Operation) :
    (o.annotate look P).Proper ↔ o.Proper := by
  match o with
  | ⟨_, _, _, body⟩ => exact Stmt.properList_annotate look _ body

theorem Operation.properList_annotate (look : Numbering) (P : Place) (os : List Operation) :
    Operation.ProperList (Operation.annotateList look P os) ↔ Operation.ProperList os := by
  match os with
  | [] => exact .rfl
  | o :: os =>
    exact and_congr (Operation.proper_annotate look _ o) (Operation.properList_annotate look _ os)

theorem Arm.properList_annotate (look : Numbering) (P : Place) (as : List Arm) :
    Arm.ProperList (Arm.annotateList look P as) ↔ Arm.ProperList as := by
  match as with
  | [] => exact .rfl
  | ⟨_, condition, branch⟩ :: rest =>
    exact and_congr (condition.proper_annotate look _) (and_congr
      (Stmt.proper_annotate look _ branch) (Arm.properList_annotate look _ rest))

end

end Treescript
