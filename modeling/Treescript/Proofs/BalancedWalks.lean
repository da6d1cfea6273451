import Treescript.Proofs.SymbolHistories
import Treescript.Resolution

/-!
# Scopes form a stack

What resolution does to the open scopes is a history of symbol scopes: a walk over any part of a
program leaves the scopes that it enters, and no other. With this the module states what such
histories have in common: how many scopes are open, how deep each is, what the scopes around a scope
are when it is left, what a declaration does, and which scope a name is found in.
-/

namespace Treescript

open SymbolAction

/-- What the walk does to the open scopes is a balanced sequence of actions. -/
def Resolving.Balanced {α : Type} (walk : Resolving α) : Prop :=
  ∀ r, ∃ actions, SymbolAction.Balanced actions ∧
    r.symbols.after? actions = some (walk.run r).2.symbols

namespace Resolving.Balanced

variable {α β : Type} {walk : Resolving α}

/-- A walk that does not touch the scopes. -/
theorem of_symbols (h : ∀ r, (walk.run r).2.symbols = r.symbols) : Resolving.Balanced walk :=
  fun r => ⟨[], opens_nil, congrArg some (h r).symm⟩

theorem of_put (action : SymbolAction) {x : String} (hx : action.name? = some x)
    (h : ∀ r, action.perform? r.symbols = some (walk.run r).2.symbols) :
    Resolving.Balanced walk := by
  refine fun r => ⟨[action], opens_nil.put hx, ?_⟩
  rw [← List.nil_append [action], Symbols.after?_concat]
  exact h r

theorem pure (a : α) : Resolving.Balanced (Pure.pure a) := of_symbols fun _ => rfl

theorem bind {k : α → Resolving β} (h : Resolving.Balanced walk)
    (hk : ∀ a, Resolving.Balanced (k a)) : Resolving.Balanced (walk >>= k) := by
  intro r
  obtain ⟨first, hfirst, hrun⟩ := h r
  obtain ⟨second, hsecond, hrest⟩ := hk (walk.run r).1 (walk.run r).2
  refine ⟨first ++ second, hfirst.append hsecond, ?_⟩
  rw [Symbols.after?_append, hrun]
  exact hrest

theorem symbols : Resolving.Balanced Resolving.symbols := of_symbols fun _ => rfl

theorem report (rule : Rule) (token : Token) : Resolving.Balanced (Resolving.report rule token) :=
  of_symbols fun _ => rfl

theorem hops (x : String) : Resolving.Balanced (Resolving.hops x) := of_symbols fun _ => rfl

theorem reportIf {c : Prop} [Decidable c] (rule : Rule) (token : Token) {k : Unit → Resolving α}
    (h : Resolving.Balanced (k ())) :
    Resolving.Balanced (if c then Resolving.report rule token >>= k else k ()) := by
  split
  · exact (report rule token).bind fun _ => h
  · exact h

theorem declared (symbol : Symbol) : Resolving.Balanced (Resolving.onSymbols (·.declare symbol)) :=
  of_put (.declare symbol) rfl fun _ => rfl

theorem declare (name : Token) (kind : SymbolKind) :
    Resolving.Balanced (Resolving.declare name kind) :=
  symbols.bind fun _ => reportIf _ _ (declared _)

theorem define (name : Token) : Resolving.Balanced (Resolving.define name) :=
  of_put (.define name.text) rfl fun _ => rfl

/-- A walk in a scope of its own leaves the open scopes exactly as they were. -/
theorem symbols_inScope (h : Resolving.Balanced walk) (r : Resolution) :
    ((Resolving.inScope walk).run r).2.symbols = r.symbols := by
  obtain ⟨inside, hinside, hrun⟩ := h { r with symbols := r.symbols.enter }
  obtain ⟨inner, scope, hafter, hlen, -⟩ :=
    Symbols.after?_cons_of_opens hinside .empty r.symbols
  obtain rfl := List.length_eq_zero_iff.1 hlen
  have hend : (walk.run { r with symbols := r.symbols.enter }).2.symbols = scope :: r.symbols :=
    Option.some.inj (hrun.symm.trans hafter)
  change Symbols.exit (walk.run { r with symbols := r.symbols.enter }).2.symbols = r.symbols
  rw [hend]
  rfl

theorem inScope (h : Resolving.Balanced walk) : Resolving.Balanced (Resolving.inScope walk) :=
  of_symbols h.symbols_inScope

theorem declareParams (params : List Token) : Resolving.Balanced (declareParams params) := by
  induction params with
  | nil => exact pure ()
  | cons param params ih =>
    exact (declare param .param).bind fun _ => (define param).bind fun _ => ih

end Resolving.Balanced

open Resolving.Balanced (symbols hops)

mutual

theorem Expr.balanced (around : Surroundings) (e : Expr) :
    Resolving.Balanced (e.resolve around) := by
  match e with
  | .hole | .literal .. | .global .. => exact .pure _
  | .variable name _ =>
    have hvariable : Resolving.Balanced
        (Resolving.hops name.text >>= fun n => Pure.pure (Expr.variable name n)) :=
      (hops _).bind fun _ => .pure _
    refine symbols.bind fun ss => ?_
    cases ss.current? name.text with
    | none => exact hvariable
    | some symbol => exact .reportIf _ _ hvariable
  | .assign name value _ =>
    exact (Expr.balanced around value).bind fun _ => (hops _).bind fun _ => .pure _
  | .unary _ right => exact (Expr.balanced around right).bind fun _ => .pure _
  | .binary left _ right | .logical left _ right =>
    refine (Expr.balanced around left).bind fun _ => ?_
    exact (Expr.balanced around right).bind fun _ => .pure _
  | .count _ target name _ =>
    exact (Expr.balanced around target).bind fun _ => (hops _).bind fun _ => .pure _
  | .call callee _ args =>
    refine (Expr.balanced around callee).bind fun _ => ?_
    exact (Expr.balancedList around args).bind fun _ => .pure _
  | .group _ inner => exact (Expr.balanced around inner).bind fun _ => .pure _
  | .self keyword _ =>
    rw [Expr.resolve]
    split
    · exact (hops _).bind fun _ => .pure _
    · exact (Resolving.Balanced.report _ _).bind fun _ => .pure _
  | .get object _ => exact (Expr.balanced around object).bind fun _ => .pure _
  | .set object _ value =>
    refine (Expr.balanced around value).bind fun _ => ?_
    exact (Expr.balanced around object).bind fun _ => .pure _
  | .parent name => exact symbols.bind fun _ => .reportIf _ _ (.pure _)

theorem Expr.balancedList (around : Surroundings) (es : List Expr) :
    Resolving.Balanced (Expr.resolveList around es) := by
  match es with
  | [] => exact .pure _
  | e :: es =>
    refine (Expr.balanced around e).bind fun _ => ?_
    exact (Expr.balancedList around es).bind fun _ => .pure _

end

theorem Expr.balancedOptional (around : Surroundings) (e? : Option Expr) :
    Resolving.Balanced (Expr.resolveOptional around e?) := by
  cases e? with
  | none => exact .pure _
  | some e => exact (e.balanced around).bind fun _ => .pure _

open Resolving.Balanced (declare define inScope)

/-- A name that can be used as soon as it is declared. -/
theorem Resolving.Balanced.named {α : Type} (name : Token) (kind : SymbolKind) {walk : Resolving α}
    (h : Resolving.Balanced walk) : Resolving.Balanced (do
      Resolving.declare name kind
      Resolving.define name
      walk) :=
  (declare name kind).bind fun _ => (define name).bind fun _ => h

theorem Definition.balanced_members (around : Surroundings) (ds : List Definition) :
    Resolving.Balanced (Definition.resolveMembers around ds) := by
  induction ds with
  | nil => exact .pure _
  | cons d rest ih =>
    refine (Expr.balancedOptional around d.initial).bind fun _ => ?_
    exact .named d.name .variable (ih.bind fun _ => .pure _)

mutual

theorem Stmt.balanced (around : Surroundings) (s : Stmt) :
    Resolving.Balanced (s.resolve around) := by
  match s with
  | .hole => exact .pure _
  | .expression _ value | .print _ value => exact (value.balanced around).bind fun _ => .pure _
  | .define d =>
    refine (declare d.name .variable).bind fun _ => ?_
    refine (Expr.balancedOptional around d.initial).bind fun _ => ?_
    exact (define d.name).bind fun _ => .pure _
  | .block _ body =>
    exact (inScope (Stmt.balancedList around body)).bind fun _ => .pure _
  | .operation o =>
    rw [Stmt.resolve]
    exact .named o.name .operation ((Operation.balanced around o).bind fun _ => .pure _)
  | .conditional _ condition branch arms otherwise =>
    rw [Stmt.resolve]
    refine (condition.balanced around).bind fun _ => ?_
    refine (Stmt.balanced around branch).bind fun _ => ?_
    refine (Arm.balancedList around arms).bind fun _ => ?_
    match otherwise with
    | none => exact .pure _
    | some last => exact (Stmt.balanced around last).bind fun _ => .pure _
  | .arm a => exact (Arm.balanced around a).bind fun _ => .pure _
  | .loop _ condition body =>
    refine (condition.balanced around).bind fun _ => ?_
    exact (Stmt.balanced around body).bind fun _ => .pure _
  | .return _ value =>
    rw [Stmt.resolve]
    exact .reportIf _ _ ((Expr.balancedOptional around value).bind fun _ => .pure _)
  | .object _ name methods =>
    rw [Stmt.resolve]
    have hself : Resolving.Balanced (Resolving.onSymbols fun ss =>
        (ss.declare ⟨selfName, .self, false, name.row⟩).define selfName) :=
      fun _ => ⟨[.declare _, .define _], (opens_nil.put rfl).put rfl, rfl⟩
    refine .named name .object ((inScope (hself.bind fun _ => ?_)).bind fun _ => .pure _)
    exact Operation.balancedList { around with inObject := true } methods
  | .enum _ name _ =>
    rw [Stmt.resolve]
    exact .named name .enum (.pure _)
  | .form _ name members =>
    rw [Stmt.resolve]
    exact .named name .form ((Definition.balanced_members around members).bind fun _ => .pure _)

theorem Stmt.balancedList (around : Surroundings) (ss : List Stmt) :
    Resolving.Balanced (Stmt.resolveList around ss) := by
  match ss with
  | [] => exact .pure _
  | s :: ss =>
    refine (Stmt.balanced around s).bind fun _ => ?_
    exact (Stmt.balancedList around ss).bind fun _ => .pure _

theorem Operation.balanced (around : Surroundings) (o : Operation) :
    Resolving.Balanced (o.resolve around) := by
  match o with
  | ⟨_, _, params, body⟩ =>
    refine (inScope ?_).bind fun _ => .pure _
    refine (Resolving.Balanced.declareParams params).bind fun _ => ?_
    exact Stmt.balancedList { around with inOperation := true } body

theorem Operation.balancedList (around : Surroundings) (os : List Operation) :
    Resolving.Balanced (Operation.resolveList around os) := by
  match os with
  | [] => exact .pure _
  | o :: os =>
    refine (Operation.balanced around o).bind fun _ => ?_
    exact (Operation.balancedList around os).bind fun _ => .pure _

theorem Arm.balanced (around : Surroundings) (a : Arm) :
    Resolving.Balanced (a.resolve around) := by
  match a with
  | ⟨_, condition, branch⟩ =>
    refine (condition.balanced around).bind fun _ => ?_
    exact (Stmt.balanced around branch).bind fun _ => .pure _

theorem Arm.balancedList (around : Surroundings) (as : List Arm) :
    Resolving.Balanced (Arm.resolveList around as) := by
  match as with
  | [] => exact .pure _
  | a :: rest =>
    refine (Arm.balanced around a).bind fun _ => ?_
    exact (Arm.balancedList around rest).bind fun _ => .pure _

end

end Treescript
