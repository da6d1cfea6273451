import Mathlib.Data.List.Forall2
import Treescript.Tree.Walk

/-!
# Trees on other rows

Two trees are alike up to rows if they have the same shape and the same numbers of hops, and their
tokens differ in nothing but the row. The tokens that failures are raised at are told apart from the
others: they are to be related by a relation of one's own, which may ask for more.
-/

namespace Treescript

/-- The same token on whatever row. -/
structure Token.Moved (t t' : Token) : Prop where
  kind : t'.kind = t.kind
  text : t'.text = t.text
  literal : t'.literal = t.literal

theorem Token.Moved.refl (t : Token) : t.Moved t := ⟨rfl, rfl, rfl⟩

/-- Related tokens are the same up to the row, and both of them are blank or neither is. -/
structure Token.Faithful (K : Token → Token → Prop) : Prop where
  moved : ∀ t t', K t t' → t.Moved t'
  blank : ∀ t t', K t t' → t'.isBlank = t.isBlank

inductive Expr.Moved (K : Token → Token → Prop) : Expr → Expr → Prop
  | hole : Moved K .hole .hole
  | literal {t t' : Token} (h : t.Moved t') (value : Literal) :
    Moved K (.literal t value) (.literal t' value)
  | variable {t t' : Token} (h : K t t') (hops : Option Nat) :
    Moved K (.variable t hops) (.variable t' hops)
  | assign {t t' : Token} {value value' : Expr} (h : K t t') (hvalue : Moved K value value')
    (hops : Option Nat) : Moved K (.assign t value hops) (.assign t' value' hops)
  | unary {t t' : Token} {right right' : Expr} (h : K t t') (hright : Moved K right right') :
    Moved K (.unary t right) (.unary t' right')
  | binary {t t' : Token} {left left' right right' : Expr} (hleft : Moved K left left')
    (h : K t t') (hright : Moved K right right') :
    Moved K (.binary left t right) (.binary left' t' right')
  | logical {t t' : Token} {left left' right right' : Expr} (hleft : Moved K left left')
    (h : K t t') (hright : Moved K right right') :
    Moved K (.logical left t right) (.logical left' t' right')
  | count {t t' name name' : Token} {target target' : Expr} (h : K t t')
    (htarget : Moved K target target') (hname : K name name') (hops : Option Nat) :
    Moved K (.count t target name hops) (.count t' target' name' hops)
  | call {t t' : Token} {callee callee' : Expr} {args args' : List Expr}
    (hcallee : Moved K callee callee') (h : K t t') (hargs : List.Forall₂ (Moved K) args args') :
    Moved K (.call callee t args) (.call callee' t' args')
  | group {t t' : Token} {inner inner' : Expr} (h : t.Moved t') (hinner : Moved K inner inner') :
    Moved K (.group t inner) (.group t' inner')
  | self {t t' : Token} (h : K t t') (hops : Option Nat) : Moved K (.self t hops) (.self t' hops)
  | get {t t' : Token} {object object' : Expr} (hobject : Moved K object object') (h : K t t') :
    Moved K (.get object t) (.get object' t')
  | set {t t' : Token} {object object' value value' : Expr} (hobject : Moved K object object')
    (h : K t t') (hvalue : Moved K value value') :
    Moved K (.set object t value) (.set object' t' value')
  | parent {t t' : Token} (h : K t t') : Moved K (.parent t) (.parent t')
  | global {t t' : Token} (h : K t t') : Moved K (.global t) (.global t')

theorem Expr.Moved.token {K : Token → Token → Prop} {e e' : Expr} (h : Expr.Moved K e e')
    (hK : ∀ t t', K t t' → t.Moved t') : e.token.Moved e'.token := by
  cases h with
  | hole => exact .refl _
  | literal ht => exact ht
  | group ht => exact ht
  | _ => exact hK _ _ ‹_›

structure Definition.Moved (K : Token → Token → Prop) (d d' : Definition) : Prop where
  token : d.token.Moved d'.token
  name : d.name.Moved d'.name
  initial : Option.Rel (Expr.Moved K) d.initial d'.initial

mutual

inductive Stmt.Moved (K : Token → Token → Prop) : Stmt → Stmt → Prop
  | hole : Stmt.Moved K .hole .hole
  | expression {t t' : Token} {value value' : Expr} (h : t.Moved t')
    (hvalue : Expr.Moved K value value') :
    Stmt.Moved K (.expression t value) (.expression t' value')
  | print {t t' : Token} {value value' : Expr} (h : t.Moved t')
    (hvalue : Expr.Moved K value value') : Stmt.Moved K (.print t value) (.print t' value')
  | define {d d' : Definition} (h : Definition.Moved K d d') :
    Stmt.Moved K (.define d) (.define d')
  | block {t t' : Token} {body body' : List Stmt} (h : t.Moved t')
    (hbody : List.Forall₂ (Stmt.Moved K) body body') :
    Stmt.Moved K (.block t body) (.block t' body')
  | operation {o o' : Operation} (h : Operation.Moved K o o') :
    Stmt.Moved K (.operation o) (.operation o')
  | conditional {t t' : Token} {condition condition' : Expr} {branch branch' : Stmt}
    {arms arms' : List Arm} {otherwise otherwise' : Option Stmt} (h : t.Moved t')
    (hcondition : Expr.Moved K condition condition') (hbranch : Stmt.Moved K branch branch')
    (harms : List.Forall₂ (Arm.Moved K) arms arms')
    (hotherwise : Option.Rel (Stmt.Moved K) otherwise otherwise') :
    Stmt.Moved K (.conditional t condition branch arms otherwise)
      (.conditional t' condition' branch' arms' otherwise')
  | arm {a a' : Arm} (h : Arm.Moved K a a') : Stmt.Moved K (.arm a) (.arm a')
  | loop {t t' : Token} {condition condition' : Expr} {body body' : Stmt} (h : t.Moved t')
    (hcondition : Expr.Moved K condition condition') (hbody : Stmt.Moved K body body') :
    Stmt.Moved K (.loop t condition body) (.loop t' condition' body')
  | return {t t' : Token} {value value' : Option Expr} (h : t.Moved t')
    (hvalue : Option.Rel (Expr.Moved K) value value') :
    Stmt.Moved K (.return t value) (.return t' value')
  | object {t t' name name' : Token} {methods methods' : List Operation} (h : t.Moved t')
    (hname : name.Moved name') (hmethods : List.Forall₂ (Operation.Moved K) methods methods') :
    Stmt.Moved K (.object t name methods) (.object t' name' methods')
  | enum {t t' name name' : Token} {elements elements' : List Token} (h : t.Moved t')
    (hname : name.Moved name') (helements : List.Forall₂ Token.Moved elements elements') :
    Stmt.Moved K (.enum t name elements) (.enum t' name' elements')
  | form {t t' name name' : Token} {members members' : List Definition} (h : t.Moved t')
    (hname : name.Moved name') (hmembers : List.Forall₂ (Definition.Moved K) members members') :
    Stmt.Moved K (.form t name members) (.form t' name' members')

inductive Operation.Moved (K : Token → Token → Prop) : Operation → Operation → Prop
  | mk {t t' name name' : Token} {params params' : List Token} {body body' : List Stmt}
    (h : t.Moved t') (hname : name.Moved name')
    (hparams : List.Forall₂ Token.Moved params params')
    (hbody : List.Forall₂ (Stmt.Moved K) body body') :
    Operation.Moved K ⟨t, name, params, body⟩ ⟨t', name', params', body'⟩

/-- An arm that stands for a statement fails at its token. -/
inductive Arm.Moved (K : Token → Token → Prop) : Arm → Arm → Prop
  | mk {t t' : Token} {condition condition' : Expr} {branch branch' : Stmt} (h : K t t')
    (hcondition : Expr.Moved K condition condition') (hbranch : Stmt.Moved K branch branch') :
    Arm.Moved K ⟨t, condition, branch⟩ ⟨t', condition', branch'⟩

end

theorem Operation.Moved.name {K : Token → Token → Prop} {o o' : Operation}
    (h : Operation.Moved K o o') : o.name.Moved o'.name := by
  obtain ⟨-, hname, -, -⟩ := h
  exact hname

def Program.Moved (K : Token → Token → Prop) : Program → Program → Prop :=
  List.Forall₂ (Stmt.Moved K)

/-- The tokens that failures are raised at, for a node, are related to themselves. -/
def Node.Fits (K : Token → Token → Prop) : Node → Prop
  | .expr (.count operator _ name _) => K operator operator ∧ K name name
  | .expr (.literal ..) | .expr (.group ..) => True
  | .expr e => K e.token e.token
  | .stmt (.arm a) => K a.token a.token
  | .stmt _ => True

variable {K : Token → Token → Prop}

mutual

theorem Expr.moved_self_iff (e : Expr) : Expr.Moved K e e ↔ ∀ n ∈ e.nodes, n.Fits K := by
  match e with
  | .hole => exact ⟨fun _ => List.forall_mem_nil _, fun _ => .hole⟩
  | .literal t value =>
    exact ⟨fun _ => List.forall_mem_singleton.2 trivial, fun _ => .literal (.refl t) value⟩
  | .variable t hops =>
    rw [Expr.nodes, List.forall_mem_singleton]
    exact ⟨fun | .variable h _ => h, fun h => .variable h hops⟩
  | .self t hops =>
    rw [Expr.nodes, List.forall_mem_singleton]
    exact ⟨fun | .self h _ => h, fun h => .self h hops⟩
  | .parent t =>
    rw [Expr.nodes, List.forall_mem_singleton]
    exact ⟨fun | .parent h => h, .parent⟩
  | .global t =>
    rw [Expr.nodes, List.forall_mem_singleton]
    exact ⟨fun | .global h => h, .global⟩
  | .assign t value hops =>
    rw [Expr.nodes, List.forall_mem_cons, ← Expr.moved_self_iff value]
    exact ⟨fun | .assign h hvalue _ => ⟨h, hvalue⟩, fun h => .assign h.1 h.2 hops⟩
  | .unary t right =>
    rw [Expr.nodes, List.forall_mem_cons, ← Expr.moved_self_iff right]
    exact ⟨fun | .unary h hright => ⟨h, hright⟩, fun h => .unary h.1 h.2⟩
  | .binary left t right =>
    rw [Expr.nodes, List.forall_mem_cons, List.forall_mem_append, ← Expr.moved_self_iff left,
      ← Expr.moved_self_iff right]
    exact ⟨fun | .binary hleft h hright => ⟨h, hleft, hright⟩, fun h => .binary h.2.1 h.1 h.2.2⟩
  | .logical left t right =>
    rw [Expr.nodes, List.forall_mem_cons, List.forall_mem_append, ← Expr.moved_self_iff left,
      ← Expr.moved_self_iff right]
    exact ⟨fun | .logical hleft h hright => ⟨h, hleft, hright⟩, fun h => .logical h.2.1 h.1 h.2.2⟩
  | .count t target name hops =>
    rw [Expr.nodes, List.forall_mem_cons, ← Expr.moved_self_iff target]
    exact ⟨fun | .count h htarget hname _ => ⟨⟨h, hname⟩, htarget⟩,
      fun h => .count h.1.1 h.2 h.1.2 hops⟩
  | .call callee t args =>
    rw [Expr.nodes, List.forall_mem_cons, List.forall_mem_append, ← Expr.moved_self_iff callee,
      ← Expr.forall₂_moved_self_iff args]
    exact ⟨fun | .call hcallee h hargs => ⟨h, hcallee, hargs⟩, fun h => .call h.2.1 h.1 h.2.2⟩
  | .group t inner =>
    rw [Expr.nodes, List.forall_mem_cons, ← Expr.moved_self_iff inner]
    exact ⟨fun | .group _ hinner => ⟨trivial, hinner⟩, fun h => .group (.refl t) h.2⟩
  | .get object t =>
    rw [Expr.nodes, List.forall_mem_cons, ← Expr.moved_self_iff object]
    exact ⟨fun | .get hobject h => ⟨h, hobject⟩, fun h => .get h.2 h.1⟩
  | .set object t value =>
    rw [Expr.nodes, List.forall_mem_cons, List.forall_mem_append, ← Expr.moved_self_iff object,
      ← Expr.moved_self_iff value]
    exact ⟨fun | .set hobject h hvalue => ⟨h, hobject, hvalue⟩, fun h => .set h.2.1 h.1 h.2.2⟩

theorem Expr.forall₂_moved_self_iff (es : List Expr) :
    List.Forall₂ (Expr.Moved K) es es ↔ ∀ n ∈ Expr.nodesOfList es, n.Fits K := by
  match es with
  | [] => exact ⟨fun _ => List.forall_mem_nil _, fun _ => .nil⟩
  | e :: es =>
    rw [List.forall₂_cons, Expr.moved_self_iff e, Expr.forall₂_moved_self_iff es, Expr.nodesOfList,
      List.forall_mem_append]

end

theorem Expr.optional_moved_self_iff (e? : Option Expr) :
    Option.Rel (Expr.Moved K) e? e? ↔ ∀ n ∈ e?.toList.flatMap Expr.nodes, n.Fits K := by
  cases e? with
  | none => exact ⟨fun _ => List.forall_mem_nil _, fun _ => .none⟩
  | some e =>
    simp only [Option.toList_some, List.flatMap_cons, List.flatMap_nil, List.append_nil,
      ← Expr.moved_self_iff e]
    exact ⟨fun | .some h => h, .some⟩

theorem Definition.moved_self_iff (d : Definition) :
    Definition.Moved K d d ↔ ∀ n ∈ d.nodes, n.Fits K := by
  rw [Definition.nodes, List.forall_mem_cons, ← Expr.optional_moved_self_iff]
  exact ⟨fun h => ⟨trivial, h.initial⟩, fun h => ⟨.refl _, .refl _, h.2⟩⟩

theorem Definition.forall₂_moved_self_iff (ds : List Definition) :
    List.Forall₂ (Definition.Moved K) ds ds ↔ ∀ n ∈ ds.flatMap Definition.nodes, n.Fits K := by
  induction ds with
  | nil => exact ⟨fun _ => List.forall_mem_nil _, fun _ => .nil⟩
  | cons d ds ih =>
    rw [List.forall₂_cons, Definition.moved_self_iff, ih, List.flatMap_cons, List.forall_mem_append]

theorem Token.forall₂_moved_refl (ts : List Token) : List.Forall₂ Token.Moved ts ts :=
  List.forall₂_same.2 fun t _ => .refl t

mutual

theorem Stmt.moved_self_iff (s : Stmt) : Stmt.Moved K s s ↔ ∀ n ∈ s.nodes, n.Fits K := by
  match s with
  | .hole => exact ⟨fun _ => List.forall_mem_nil _, fun _ => .hole⟩
  | .expression t value =>
    rw [Stmt.nodes, List.forall_mem_cons, ← Expr.moved_self_iff]
    exact ⟨fun | .expression _ h => ⟨trivial, h⟩, fun h => .expression (.refl t) h.2⟩
  | .print t value =>
    rw [Stmt.nodes, List.forall_mem_cons, ← Expr.moved_self_iff]
    exact ⟨fun | .print _ h => ⟨trivial, h⟩, fun h => .print (.refl t) h.2⟩
  | .define d =>
    rw [Stmt.nodes, ← Definition.moved_self_iff]
    exact ⟨fun | .define h => h, .define⟩
  | .block t body =>
    rw [Stmt.nodes, List.forall_mem_cons, ← Stmt.forall₂_moved_self_iff body]
    exact ⟨fun | .block _ h => ⟨trivial, h⟩, fun h => .block (.refl t) h.2⟩
  | .operation o =>
    rw [Stmt.nodes, ← Operation.moved_self_iff o]
    exact ⟨fun | .operation h => h, .operation⟩
  | .conditional t condition branch arms none =>
    rw [Stmt.nodes, List.forall_mem_cons, List.forall_mem_append, List.forall_mem_append,
      List.forall_mem_append, ← Expr.moved_self_iff, ← Stmt.moved_self_iff branch,
      ← Arm.forall₂_moved_self_iff arms]
    exact ⟨fun | .conditional _ hc hb ha _ => ⟨trivial, ⟨⟨hc, hb⟩, ha⟩, List.forall_mem_nil _⟩,
      fun ⟨_, ⟨⟨hc, hb⟩, ha⟩, _⟩ => .conditional (.refl t) hc hb ha .none⟩
  | .conditional t condition branch arms (some otherwise) =>
    rw [Stmt.nodes, List.forall_mem_cons, List.forall_mem_append, List.forall_mem_append,
      List.forall_mem_append, ← Expr.moved_self_iff, ← Stmt.moved_self_iff branch,
      ← Arm.forall₂_moved_self_iff arms, ← Stmt.moved_self_iff otherwise]
    exact ⟨fun | .conditional _ hc hb ha (.some ho) => ⟨trivial, ⟨⟨hc, hb⟩, ha⟩, ho⟩,
      fun ⟨_, ⟨⟨hc, hb⟩, ha⟩, ho⟩ => .conditional (.refl t) hc hb ha (.some ho)⟩
  | .arm a =>
    rw [Stmt.nodes, ← Arm.moved_self_iff a]
    exact ⟨fun | .arm h => h, .arm⟩
  | .loop t condition body =>
    rw [Stmt.nodes, List.forall_mem_cons, List.forall_mem_append, ← Expr.moved_self_iff,
      ← Stmt.moved_self_iff body]
    exact ⟨fun | .loop _ hc hb => ⟨trivial, hc, hb⟩, fun h => .loop (.refl t) h.2.1 h.2.2⟩
  | .return t value =>
    rw [Stmt.nodes, List.forall_mem_cons, ← Expr.optional_moved_self_iff]
    exact ⟨fun | .return _ h => ⟨trivial, h⟩, fun h => .return (.refl t) h.2⟩
  | .object t name methods =>
    rw [Stmt.nodes, List.forall_mem_cons, ← Operation.forall₂_moved_self_iff methods]
    exact ⟨fun | .object _ _ h => ⟨trivial, h⟩, fun h => .object (.refl t) (.refl name) h.2⟩
  | .enum t name elements =>
    exact ⟨fun _ => List.forall_mem_singleton.2 trivial,
      fun _ => .enum (.refl t) (.refl name) (Token.forall₂_moved_refl elements)⟩
  | .form t name members =>
    rw [Stmt.nodes, List.forall_mem_cons, ← Definition.forall₂_moved_self_iff]
    exact ⟨fun | .form _ _ h => ⟨trivial, h⟩, fun h => .form (.refl t) (.refl name) h.2⟩

theorem Stmt.forall₂_moved_self_iff (ss : List Stmt) :
    List.Forall₂ (Stmt.Moved K) ss ss ↔ ∀ n ∈ Stmt.nodesOfList ss, n.Fits K := by
  match ss with
  | [] => exact ⟨fun _ => List.forall_mem_nil _, fun _ => .nil⟩
  | s :: ss =>
    rw [List.forall₂_cons, Stmt.moved_self_iff s, Stmt.forall₂_moved_self_iff ss, Stmt.nodesOfList,
      List.forall_mem_append]

theorem Operation.moved_self_iff (o : Operation) :
    Operation.Moved K o o ↔ ∀ n ∈ o.nodes, n.Fits K := by
  match o with
  | ⟨t, name, params, body⟩ =>
    rw [Operation.nodes, List.forall_mem_cons, ← Stmt.forall₂_moved_self_iff body]
    exact ⟨fun | .mk _ _ _ h => ⟨trivial, h⟩,
      fun h => .mk (.refl t) (.refl name) (Token.forall₂_moved_refl params) h.2⟩

theorem Operation.forall₂_moved_self_iff (os : List Operation) :
    List.Forall₂ (Operation.Moved K) os os ↔ ∀ n ∈ Operation.nodesOfList os, n.Fits K := by
  match os with
  | [] => exact ⟨fun _ => List.forall_mem_nil _, fun _ => .nil⟩
  | o :: os =>
    rw [List.forall₂_cons, Operation.moved_self_iff o, Operation.forall₂_moved_self_iff os,
      Operation.nodesOfList, List.forall_mem_append]

theorem Arm.moved_self_iff (a : Arm) : Arm.Moved K a a ↔ ∀ n ∈ a.nodes, n.Fits K := by
  match a with
  | ⟨t, condition, branch⟩ =>
    rw [Arm.nodes, List.forall_mem_cons, List.forall_mem_append, ← Expr.moved_self_iff,
      ← Stmt.moved_self_iff branch]
    exact ⟨fun | .mk h hc hb => ⟨h, hc, hb⟩, fun h => .mk h.1 h.2.1 h.2.2⟩

theorem Arm.forall₂_moved_self_iff (as : List Arm) :
    List.Forall₂ (Arm.Moved K) as as ↔ ∀ n ∈ Arm.nodesOfList as, n.Fits K := by
  match as with
  | [] => exact ⟨fun _ => List.forall_mem_nil _, fun _ => .nil⟩
  | a :: rest =>
    rw [List.forall₂_cons, Arm.moved_self_iff a, Arm.forall₂_moved_self_iff rest, Arm.nodesOfList,
      List.forall_mem_append]

end

/-- If tokens are related to themselves, then so are trees. -/
theorem Operation.moved_refl (hK : ∀ t, K t t) (o : Operation) : Operation.Moved K o o := by
  refine o.moved_self_iff.2 fun n _ => ?_
  unfold Node.Fits
  split
  · exact ⟨hK _, hK _⟩
  · trivial
  · trivial
  · exact hK _
  · exact hK _
  · trivial

end Treescript
