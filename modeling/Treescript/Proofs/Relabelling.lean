import Treescript.Proofs.Annotation

/-!
# Relabelled programs

A relabelling gives each reference of a text a new name and a new number of hops, and each variable
that the text declares a new name. It knows of a reference how many local scopes of the text are
around it. Resolution computes the numbers of hops from the names alone, so a program that differs
from another in its numbers only is resolved in the same way.
-/

namespace Treescript

def Token.renamed (f : String → String) (t : Token) : Token := { t with text := f t.text }

@[simp] theorem Token.text_renamed (f : String → String) (t : Token) :
    (t.renamed f).text = f t.text := rfl

theorem Token.renamed_of_eq {f : String → String} {t : Token} (h : f t.text = t.text) :
    t.renamed f = t := by
  rw [renamed, h]

/-- The name and the number of hops that a reference gets in place of its own. -/
abbrev Label := String → Option Nat → String × Option Nat

mutual

def Expr.relabel (f : Label) : Expr → Expr
  | .hole => .hole
  | .literal token value => .literal token value
  | .variable name hops => .variable (name.renamed fun x => (f x hops).1) (f name.text hops).2
  | .assign name value hops =>
    .assign (name.renamed fun x => (f x hops).1) (value.relabel f) (f name.text hops).2
  | .unary operator right => .unary operator (right.relabel f)
  | .binary left operator right => .binary (left.relabel f) operator (right.relabel f)
  | .logical left operator right => .logical (left.relabel f) operator (right.relabel f)
  | .count operator target name hops =>
    .count operator (target.relabel f) (name.renamed fun x => (f x hops).1) (f name.text hops).2
  | .call callee paren args => .call (callee.relabel f) paren (Expr.relabelList f args)
  | .group token inner => .group token (inner.relabel f)
  | .self keyword hops => .self keyword (f selfName hops).2
  | .get object name => .get (object.relabel f) name
  | .set object name value => .set (object.relabel f) name (value.relabel f)
  | .parent name => .parent name
  | .global name => .global name

def Expr.relabelList (f : Label) : List Expr → List Expr
  | [] => []
  | e :: es => e.relabel f :: Expr.relabelList f es

end

/-- What becomes of the references and of the names of variables and parameters, by the number of
local scopes around them. -/
structure Relabelling where
  references : Nat → Label
  locals : Nat → String → String

def Definition.relabelInitial (f : Label) (d : Definition) : Definition :=
  { d with initial := d.initial.map (·.relabel f) }

mutual

/-- Relabels a statement that stands inside `depth` local scopes. -/
def Stmt.relabel (R : Relabelling) (depth : Nat) : Stmt → Stmt
  | .hole => .hole
  | .expression token value => .expression token (value.relabel (R.references depth))
  | .print token value => .print token (value.relabel (R.references depth))
  | .define ⟨token, name, initial⟩ =>
    .define ⟨token, name.renamed (R.locals depth),
      initial.map (·.relabel (R.references depth))⟩
  | .block token body => .block token (Stmt.relabelList R (depth + 1) body)
  | .operation o => .operation (o.relabel R (depth + 1))
  | .conditional token condition branch arms none =>
    .conditional token (condition.relabel (R.references depth)) (branch.relabel R depth)
      (Arm.relabelList R depth arms) none
  | .conditional token condition branch arms (some otherwise) =>
    .conditional token (condition.relabel (R.references depth)) (branch.relabel R depth)
      (Arm.relabelList R depth arms) (some (otherwise.relabel R depth))
  | .arm a => .arm (a.relabel R depth)
  | .loop token condition body =>
    .loop token (condition.relabel (R.references depth)) (body.relabel R depth)
  | .return keyword value => .return keyword (value.map (·.relabel (R.references depth)))
  | .object token name methods => .object token name (Operation.relabelList R (depth + 2) methods)
  | .enum token name elements => .enum token name elements
  | .form token name members =>
    .form token name (members.map (·.relabelInitial (R.references depth)))

def Stmt.relabelList (R : Relabelling) (depth : Nat) : List Stmt → List Stmt
  | [] => []
  | s :: ss => s.relabel R depth :: Stmt.relabelList R depth ss

/-- Relabels an operation whose parameters and body are inside `depth` local scopes. -/
def Operation.relabel (R : Relabelling) (depth : Nat) : Operation → Operation
  | ⟨token, name, params, body⟩ =>
    ⟨token, name, params.map (·.renamed (R.locals depth)), Stmt.relabelList R depth body⟩

def Operation.relabelList (R : Relabelling) (depth : Nat) : List Operation → List Operation
  | [] => []
  | o :: os => o.relabel R depth :: Operation.relabelList R depth os

def Arm.relabel (R : Relabelling) (depth : Nat) : Arm → Arm
  | ⟨token, condition, branch⟩ =>
    ⟨token, condition.relabel (R.references depth), branch.relabel R depth⟩

def Arm.relabelList (R : Relabelling) (depth : Nat) : List Arm → List Arm
  | [] => []
  | a :: rest => a.relabel R depth :: Arm.relabelList R depth rest

end

mutual

theorem Expr.annotate_annotate (look other : Numbering) (P Q : Place) (e : Expr) :
    (e.annotate other Q).annotate look P = e.annotate look P := by
  match e with
  | .hole | .literal .. | .variable .. | .self .. | .parent .. | .global .. => rfl
  | .assign _ value _ | .group _ value | .get value _ | .unary _ value | .count _ value _ _ =>
    simp only [Expr.annotate, Expr.annotate_annotate look other P Q value]
  | .binary left _ right | .logical left _ right | .set left _ right =>
    simp only [Expr.annotate, Expr.annotate_annotate look other P Q left,
      Expr.annotate_annotate look other P Q right]
  | .call callee _ args =>
    simp only [Expr.annotate, Expr.annotate_annotate look other P Q callee,
      Expr.annotateList_annotateList look other P Q args]

theorem Expr.annotateList_annotateList (look other : Numbering) (P Q : Place) (es : List Expr) :
    Expr.annotateList look P (Expr.annotateList other Q es) = Expr.annotateList look P es := by
  match es with
  | [] => rfl
  | e :: es =>
    simp only [Expr.annotateList, Expr.annotate_annotate look other P Q e,
      Expr.annotateList_annotateList look other P Q es]

end

theorem Expr.map_annotate_annotate (look other : Numbering) (P Q : Place) (e? : Option Expr) :
    (e?.map (·.annotate other Q)).map (·.annotate look P) = e?.map (·.annotate look P) := by
  rw [Option.map_map]
  exact congrArg (Option.map · e?) (funext fun e => e.annotate_annotate look other P Q)

theorem Definition.annotateMembers_annotateMembers (look other : Numbering) (P Q : Place)
    (ds : List Definition) :
    Definition.annotateMembers look P (Definition.annotateMembers other Q ds) =
      Definition.annotateMembers look P ds := by
  induction ds generalizing P Q with
  | nil => rfl
  | cons d ds ih =>
    simp only [Definition.annotateMembers, Definition.annotate, Expr.map_annotate_annotate, ih]

mutual

theorem Stmt.annotate_annotate (look other : Numbering) (P Q : Place) (s : Stmt) :
    (s.annotate other Q).annotate look P = s.annotate look P := by
  match s with
  | .hole | .enum .. => rfl
  | .expression _ value | .print _ value =>
    simp only [Stmt.annotate, Expr.annotate_annotate]
  | .define d =>
    simp only [Stmt.annotate, Definition.annotate, Expr.map_annotate_annotate]
  | .block _ body =>
    simp only [Stmt.annotate, Stmt.declaresList_annotate,
      Stmt.annotateList_annotateList look other _ _ body]
  | .operation ⟨token, name, params, body⟩ =>
    have h := Operation.annotate_annotate look other (P.after [name.text]) (Q.after [name.text])
      ⟨token, name, params, body⟩
    simp only [Stmt.annotate, Stmt.operation.injEq]
    exact h
  | .conditional _ condition branch arms none =>
    simp only [Stmt.annotate, Stmt.declares_annotate, Expr.annotate_annotate,
      Stmt.annotate_annotate look other _ _ branch,
      Arm.annotateList_annotateList look other _ _ arms]
  | .conditional _ condition branch arms (some otherwise) =>
    simp only [Stmt.annotate, Stmt.declares_annotate, Arm.declaresList_annotate,
      Expr.annotate_annotate, Stmt.annotate_annotate look other _ _ branch,
      Arm.annotateList_annotateList look other _ _ arms,
      Stmt.annotate_annotate look other _ _ otherwise]
  | .arm a => simp only [Stmt.annotate, Arm.annotate_annotate look other _ _ a]
  | .loop _ condition body =>
    simp only [Stmt.annotate, Expr.annotate_annotate, Stmt.annotate_annotate look other _ _ body]
  | .return _ value => simp only [Stmt.annotate, Expr.map_annotate_annotate]
  | .object _ name methods =>
    simp only [Stmt.annotate, Operation.annotateList_annotateList look other _ _ methods]
  | .form _ name members =>
    simp only [Stmt.annotate, Definition.annotateMembers_annotateMembers]

theorem Stmt.annotateList_annotateList (look other : Numbering) (P Q : Place) (ss : List Stmt) :
    Stmt.annotateList look P (Stmt.annotateList other Q ss) = Stmt.annotateList look P ss := by
  match ss with
  | [] => rfl
  | s :: ss =>
    simp only [Stmt.annotateList, Stmt.declares_annotate, Stmt.annotate_annotate look other _ _ s,
      Stmt.annotateList_annotateList look other _ _ ss]

theorem Operation.annotate_annotate (look other : Numbering) (P Q : Place) (o : Operation) :
    (o.annotate other Q).annotate look P = o.annotate look P := by
  match o with
  | ⟨token, name, params, body⟩ =>
    have hp := Place.operation_annotate P Q other ⟨token, name, params, body⟩
    simp only [Operation.annotate] at hp
    simp only [Operation.annotate, hp, Stmt.annotateList_annotateList look other _ _ body]

theorem Operation.annotateList_annotateList (look other : Numbering) (P Q : Place)
    (os : List Operation) :
    Operation.annotateList look P (Operation.annotateList other Q os) =
      Operation.annotateList look P os := by
  match os with
  | [] => rfl
  | o :: os =>
    simp only [Operation.annotateList, Operation.annotate_annotate look other _ _ o,
      Operation.annotateList_annotateList look other _ _ os]

theorem Arm.annotate_annotate (look other : Numbering) (P Q : Place) (a : Arm) :
    (a.annotate other Q).annotate look P = a.annotate look P := by
  match a with
  | ⟨_, condition, branch⟩ =>
    simp only [Arm.annotate, Expr.annotate_annotate, Stmt.annotate_annotate look other _ _ branch]

theorem Arm.annotateList_annotateList (look other : Numbering) (P Q : Place) (as : List Arm) :
    Arm.annotateList look P (Arm.annotateList other Q as) = Arm.annotateList look P as := by
  match as with
  | [] => rfl
  | a :: rest =>
    simp only [Arm.annotateList, Arm.declares_annotate, Arm.annotate_annotate look other _ _ a,
      Arm.annotateList_annotateList look other _ _ rest]

end

/-- A relabelling that gives new numbers only. -/
structure Relabelling.Renumbers (R : Relabelling) : Prop where
  references : ∀ depth x hops, (R.references depth x hops).1 = x
  locals : ∀ depth x, R.locals depth x = x

theorem Token.renamed_eq_self {f : String → String} (h : ∀ x, f x = x) (t : Token) :
    t.renamed f = t := t.renamed_of_eq (h t.text)

mutual

theorem Expr.annotate_relabel {f : Label} (hf : ∀ x hops, (f x hops).1 = x) (look : Numbering)
    (P : Place) (e : Expr) : (e.relabel f).annotate look P = e.annotate look P := by
  match e with
  | .hole | .literal .. | .self .. | .parent .. | .global .. => rfl
  | .variable _ _ => simp only [Expr.relabel, Expr.annotate, Token.renamed, hf]
  | .assign _ value _ | .count _ value _ _ =>
    simp only [Expr.relabel, Expr.annotate, Token.renamed, hf,
      Expr.annotate_relabel hf look P value]
  | .group _ value | .get value _ | .unary _ value =>
    simp only [Expr.relabel, Expr.annotate, Expr.annotate_relabel hf look P value]
  | .binary left _ right | .logical left _ right | .set left _ right =>
    simp only [Expr.relabel, Expr.annotate, Expr.annotate_relabel hf look P left,
      Expr.annotate_relabel hf look P right]
  | .call callee _ args =>
    simp only [Expr.relabel, Expr.annotate, Expr.annotate_relabel hf look P callee,
      Expr.annotateList_relabelList hf look P args]

theorem Expr.annotateList_relabelList {f : Label} (hf : ∀ x hops, (f x hops).1 = x)
    (look : Numbering) (P : Place) (es : List Expr) :
    Expr.annotateList look P (Expr.relabelList f es) = Expr.annotateList look P es := by
  match es with
  | [] => rfl
  | e :: es =>
    simp only [Expr.relabelList, Expr.annotateList, Expr.annotate_relabel hf look P e,
      Expr.annotateList_relabelList hf look P es]

end

theorem Expr.map_annotate_relabel {f : Label} (hf : ∀ x hops, (f x hops).1 = x)
    (look : Numbering) (P : Place) (e? : Option Expr) :
    (e?.map (·.relabel f)).map (·.annotate look P) = e?.map (·.annotate look P) := by
  rw [Option.map_map]
  exact congrArg (Option.map · e?) (funext fun e => e.annotate_relabel hf look P)

theorem Definition.names_relabelInitial (f : Label) (ds : List Definition) :
    (ds.map (·.relabelInitial f)).map (·.name.text) = ds.map (·.name.text) := by
  rw [List.map_map]
  rfl

theorem Definition.annotateMembers_relabel {f : Label} (hf : ∀ x hops, (f x hops).1 = x)
    (look : Numbering) (P : Place) (ds : List Definition) :
    Definition.annotateMembers look P (ds.map (·.relabelInitial f)) =
      Definition.annotateMembers look P ds := by
  induction ds generalizing P with
  | nil => rfl
  | cons d ds ih =>
    simp only [List.map_cons, Definition.annotateMembers, Definition.annotate,
      Definition.relabelInitial, Expr.map_annotate_relabel hf]
    exact congrArg _ (ih _)

mutual

theorem Stmt.declares_relabel {R : Relabelling} (hR : R.Renumbers) (depth : Nat) (s : Stmt) :
    (s.relabel R depth).declares = s.declares := by
  match s with
  | .hole | .expression .. | .print .. | .block .. | .return .. | .enum .. | .object .. =>
    simp only [Stmt.relabel, Stmt.declares]
  | .define d => simp only [Stmt.relabel, Stmt.declares, Token.text_renamed, hR.locals]
  | .operation ⟨_, _, _, _⟩ => simp only [Stmt.relabel, Stmt.declares, Operation.relabel]
  | .conditional _ _ branch arms none =>
    simp only [Stmt.relabel, Stmt.declares, Stmt.declares_relabel hR depth branch,
      Arm.declaresList_relabel hR depth arms]
  | .conditional _ _ branch arms (some otherwise) =>
    simp only [Stmt.relabel, Stmt.declares, Stmt.declares_relabel hR depth branch,
      Arm.declaresList_relabel hR depth arms, Stmt.declares_relabel hR depth otherwise]
  | .arm a => simp only [Stmt.relabel, Stmt.declares, Arm.declares_relabel hR depth a]
  | .loop _ _ body => simp only [Stmt.relabel, Stmt.declares, Stmt.declares_relabel hR depth body]
  | .form .. => simp only [Stmt.relabel, Stmt.declares, Definition.names_relabelInitial]

theorem Arm.declares_relabel {R : Relabelling} (hR : R.Renumbers) (depth : Nat) (a : Arm) :
    (a.relabel R depth).declares = a.declares := by
  match a with
  | ⟨_, _, branch⟩ =>
    simp only [Arm.relabel, Arm.declares, Stmt.declares_relabel hR depth branch]

theorem Arm.declaresList_relabel {R : Relabelling} (hR : R.Renumbers) (depth : Nat)
    (as : List Arm) : Arm.declaresList (Arm.relabelList R depth as) = Arm.declaresList as := by
  match as with
  | [] => rfl
  | a :: rest =>
    simp only [Arm.relabelList, Arm.declaresList, Arm.declares_relabel hR depth a,
      Arm.declaresList_relabel hR depth rest]

end

theorem Stmt.declaresList_relabel {R : Relabelling} (hR : R.Renumbers) (depth : Nat)
    (ss : List Stmt) : Stmt.declaresList (Stmt.relabelList R depth ss) = Stmt.declaresList ss := by
  induction ss with
  | nil => rfl
  | cons s ss ih => simp only [Stmt.relabelList, Stmt.declaresList, Stmt.declares_relabel hR, ih]

mutual

/-- Resolution does not look at the numbers that are there. -/
theorem Stmt.annotate_relabel {R : Relabelling} (hR : R.Renumbers) (look : Numbering) (P : Place)
    (depth : Nat) (s : Stmt) : (s.relabel R depth).annotate look P = s.annotate look P := by
  have hf := hR.references depth
  match s with
  | .hole | .enum .. => rfl
  | .expression _ value | .print _ value =>
    simp only [Stmt.relabel, Stmt.annotate, Expr.annotate_relabel hf]
  | .define ⟨_, name, initial⟩ =>
    simp only [Stmt.relabel, Stmt.annotate, Definition.annotate,
      Token.renamed_eq_self (hR.locals depth), Expr.map_annotate_relabel hf]
  | .block _ body =>
    simp only [Stmt.relabel, Stmt.annotate, Stmt.declaresList_relabel hR,
      Stmt.annotateList_relabelList hR look _ _ body]
  | .operation ⟨token, name, params, body⟩ =>
    have h := Operation.annotate_relabel hR look (P.after [name.text]) (depth + 1)
      ⟨token, name, params, body⟩
    simp only [Stmt.relabel, Stmt.annotate, Stmt.operation.injEq]
    exact h
  | .conditional _ condition branch arms none =>
    simp only [Stmt.relabel, Stmt.annotate, Stmt.declares_relabel hR, Expr.annotate_relabel hf,
      Stmt.annotate_relabel hR look _ _ branch, Arm.annotateList_relabelList hR look _ _ arms]
  | .conditional _ condition branch arms (some otherwise) =>
    simp only [Stmt.relabel, Stmt.annotate, Stmt.declares_relabel hR, Arm.declaresList_relabel hR,
      Expr.annotate_relabel hf, Stmt.annotate_relabel hR look _ _ branch,
      Arm.annotateList_relabelList hR look _ _ arms, Stmt.annotate_relabel hR look _ _ otherwise]
  | .arm a => simp only [Stmt.relabel, Stmt.annotate, Arm.annotate_relabel hR look _ _ a]
  | .loop _ condition body =>
    simp only [Stmt.relabel, Stmt.annotate, Expr.annotate_relabel hf,
      Stmt.annotate_relabel hR look _ _ body]
  | .return _ value => simp only [Stmt.relabel, Stmt.annotate, Expr.map_annotate_relabel hf]
  | .object _ name methods =>
    simp only [Stmt.relabel, Stmt.annotate, Operation.annotateList_relabelList hR look _ _ methods]
  | .form _ name members =>
    simp only [Stmt.relabel, Stmt.annotate, Definition.annotateMembers_relabel hf]

theorem Stmt.annotateList_relabelList {R : Relabelling} (hR : R.Renumbers) (look : Numbering)
    (P : Place) (depth : Nat) (ss : List Stmt) :
    Stmt.annotateList look P (Stmt.relabelList R depth ss) = Stmt.annotateList look P ss := by
  match ss with
  | [] => rfl
  | s :: ss =>
    simp only [Stmt.relabelList, Stmt.annotateList, Stmt.declares_relabel hR,
      Stmt.annotate_relabel hR look _ _ s, Stmt.annotateList_relabelList hR look _ _ ss]

theorem Operation.annotate_relabel {R : Relabelling} (hR : R.Renumbers) (look : Numbering)
    (P : Place) (depth : Nat) (o : Operation) :
    (o.relabel R depth).annotate look P = o.annotate look P := by
  match o with
  | ⟨token, name, params, body⟩ =>
    have hparams : params.map (·.renamed (R.locals depth)) = params :=
      List.map_id'' (Token.renamed_eq_self (hR.locals depth)) params
    simp only [Operation.relabel, Operation.annotate, hparams, Place.operation, Operation.locals,
      Stmt.declaresList_relabel hR, Stmt.annotateList_relabelList hR look _ _ body]

theorem Operation.annotateList_relabelList {R : Relabelling} (hR : R.Renumbers)
    (look : Numbering) (P : Place) (depth : Nat) (os : List Operation) :
    Operation.annotateList look P (Operation.relabelList R depth os) =
      Operation.annotateList look P os := by
  match os with
  | [] => rfl
  | o :: os =>
    simp only [Operation.relabelList, Operation.annotateList,
      Operation.annotate_relabel hR look _ _ o, Operation.annotateList_relabelList hR look _ _ os]

theorem Arm.annotate_relabel {R : Relabelling} (hR : R.Renumbers) (look : Numbering) (P : Place)
    (depth : Nat) (a : Arm) : (a.relabel R depth).annotate look P = a.annotate look P := by
  match a with
  | ⟨_, condition, branch⟩ =>
    simp only [Arm.relabel, Arm.annotate, Expr.annotate_relabel (hR.references depth),
      Stmt.annotate_relabel hR look _ _ branch]

theorem Arm.annotateList_relabelList {R : Relabelling} (hR : R.Renumbers) (look : Numbering)
    (P : Place) (depth : Nat) (as : List Arm) :
    Arm.annotateList look P (Arm.relabelList R depth as) = Arm.annotateList look P as := by
  match as with
  | [] => rfl
  | a :: rest =>
    simp only [Arm.relabelList, Arm.annotateList, Arm.declares_relabel hR,
      Arm.annotate_relabel hR look _ _ a, Arm.annotateList_relabelList hR look _ _ rest]

end

end Treescript
