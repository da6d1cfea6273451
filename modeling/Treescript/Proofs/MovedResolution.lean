import Treescript.Proofs.MovedTrees
import Treescript.Resolution

/-!
# Resolution on other rows

The walk of resolution keeps the row of every declaration and reports broken rules with the rows of
tokens, but it never asks for a row. So over trees that are alike up to rows two walks find the same
numbers of hops and report the same rules, at tokens that are alike.
-/

namespace Treescript

variable {K : Token → Token → Prop}

structure Symbol.Moved (s s' : Symbol) : Prop where
  name : s'.name = s.name
  kind : s'.kind = s.kind
  defined : s'.defined = s.defined

/-- The scopes have the same names, declared alike on whatever rows. -/
def Symbols.Moved : Symbols → Symbols → Prop :=
  List.Forall₂ fun scope scope' => ∀ x, Option.Rel Symbol.Moved (scope.get? x) (scope'.get? x)

structure Diagnostic.Moved (d d' : Diagnostic) : Prop where
  rule : d'.rule = d.rule
  message : d'.message = d.message
  token : d.token.Moved d'.token

structure Resolution.Moved (r r' : Resolution) : Prop where
  symbols : r.symbols.Moved r'.symbols
  diagnostics : List.Forall₂ Diagnostic.Moved r.diagnostics r'.diagnostics

theorem Symbol.Moved.refl (s : Symbol) : s.Moved s := ⟨rfl, rfl, rfl⟩

theorem Diagnostic.moved_of (rule : Rule) {t t' : Token} (h : t.Moved t') :
    (Diagnostic.of rule t).Moved (.of rule t') :=
  ⟨rfl, congrArg rule.complaint h.text, h⟩

namespace Symbols.Moved

variable {ss ss' : Symbols}

theorem isGlobal (h : ss.Moved ss') : ss'.isGlobal = ss.isGlobal := by
  cases h <;> rfl

theorem enter (h : ss.Moved ss') : ss.enter.Moved ss'.enter := .cons (fun _ => .none) h

theorem exit (h : ss.Moved ss') : ss.exit.Moved ss'.exit := by
  cases h with
  | nil => exact .nil
  | cons _ h => exact h

theorem current? (h : ss.Moved ss') (x : String) :
    Option.Rel Symbol.Moved (ss.current? x) (ss'.current? x) := by
  cases h with
  | nil => exact .none
  | cons h _ => exact h x

theorem declares (h : ss.Moved ss') (x : String) : ss'.declares x = ss.declares x := by
  have hx := h.current? x
  rw [Symbols.declares, Symbols.declares]
  generalize ss.current? x = s?, ss'.current? x = s'? at hx
  cases hx <;> rfl

theorem declare (h : ss.Moved ss') {s s' : Symbol} (hs : s.Moved s') :
    (ss.declare s).Moved (ss'.declare s') := by
  cases h with
  | nil => exact .nil
  | cons hscope h =>
    refine .cons (fun x => ?_) h
    rw [NameMap.get?_insert, NameMap.get?_insert, hs.name]
    split
    · exact .some ⟨rfl, hs.kind, rfl⟩
    · exact hscope x

theorem define (h : ss.Moved ss') (name : String) : (ss.define name).Moved (ss'.define name) := by
  cases h with
  | nil => exact .nil
  | @cons scope scope' _ _ hscope h =>
    refine .cons (fun x => ?_) h
    rw [NameMap.get?_insert, NameMap.get?_insert]
    split
    · have hname := hscope name
      generalize scope.get? name = s?, scope'.get? name = s'? at hname
      cases hname with
      | none => exact .some (.refl _)
      | some hs => exact .some ⟨hs.name, hs.kind, rfl⟩
    · exact hscope x

theorem hops? (h : ss.Moved ss') (x : String) : ss'.hops? x = ss.hops? x := by
  rw [Symbols.hops?, Symbols.hops?]
  induction h with
  | nil => rfl
  | @cons scope scope' _ _ hscope _ ih =>
    have hx := hscope x
    rw [Symbols.resolve?, Symbols.resolve?]
    generalize scope.get? x = s?, scope'.get? x = s'? at hx
    cases hx with
    | some => rfl
    | none =>
      have hcrossed := congrArg (Option.map (· + 1)) ih
      simpa [Option.map_map, Function.comp_def] using hcrossed

end Symbols.Moved

/-- From states that are alike, the walks end with related results in states that are alike. -/
def Resolving.Moved {α β : Type} (R : α → β → Prop) (walk : Resolving α) (walk' : Resolving β) :
    Prop :=
  ∀ r r', r.Moved r' →
    R (walk.run r).1 (walk'.run r').1 ∧ (walk.run r).2.Moved (walk'.run r').2

namespace Resolving.Moved

variable {α β γ δ : Type} {R : α → β → Prop} {S : γ → δ → Prop} {walk : Resolving α}
  {walk' : Resolving β}

theorem pure {a : α} {b : β} (h : R a b) : Resolving.Moved R (Pure.pure a) (Pure.pure b) :=
  fun _ _ hr => ⟨h, hr⟩

theorem bind {k : α → Resolving γ} {k' : β → Resolving δ} (h : Resolving.Moved R walk walk')
    (hk : ∀ a b, R a b → Resolving.Moved S (k a) (k' b)) :
    Resolving.Moved S (walk >>= k) (walk' >>= k') := by
  intro r r' hr
  obtain ⟨hab, hr₁⟩ := h r r' hr
  exact hk _ _ hab _ _ hr₁

theorem symbols : Resolving.Moved Symbols.Moved Resolving.symbols Resolving.symbols :=
  fun _ _ hr => ⟨hr.symbols, hr⟩

theorem report (rule : Rule) {t t' : Token} (h : t.Moved t') :
    Resolving.Moved (fun _ _ => True) (Resolving.report rule t) (Resolving.report rule t') :=
  fun _ _ hr => ⟨trivial, hr.symbols,
    List.rel_append hr.diagnostics (.cons (Diagnostic.moved_of rule h) .nil)⟩

theorem onSymbols {f f' : Symbols → Symbols} (h : ∀ ss ss', ss.Moved ss' → (f ss).Moved (f' ss')) :
    Resolving.Moved (fun _ _ => True) (Resolving.onSymbols f) (Resolving.onSymbols f') :=
  fun _ _ hr => ⟨trivial, h _ _ hr.symbols, hr.diagnostics⟩

theorem hops (x : String) : Resolving.Moved (· = ·) (Resolving.hops x) (Resolving.hops x) :=
  symbols.bind fun _ _ hss => pure (hss.hops? x).symm

/-- A report that both walks make or neither does. -/
theorem reportIf {c : Prop} [Decidable c] (rule : Rule) {t t' : Token} (h : t.Moved t')
    {k : Unit → Resolving γ} {k' : Unit → Resolving δ} (hk : Resolving.Moved S (k ()) (k' ())) :
    Resolving.Moved S (if c then Resolving.report rule t >>= k else k ())
      (if c then Resolving.report rule t' >>= k' else k' ()) := by
  by_cases hc : c
  · rw [if_pos hc, if_pos hc]
    exact (report rule h).bind fun _ _ _ => hk
  · rwa [if_neg hc, if_neg hc]

theorem declare {t t' : Token} (h : t.Moved t') (kind : SymbolKind) :
    Resolving.Moved (fun _ _ => True) (Resolving.declare t kind) (Resolving.declare t' kind) := by
  refine symbols.bind fun ss ss' hss => ?_
  rw [h.text, hss.declares]
  exact reportIf _ h (onSymbols fun _ _ hss => hss.declare ⟨rfl, rfl, rfl⟩)

theorem define {t t' : Token} (h : t.Moved t') :
    Resolving.Moved (fun _ _ => True) (Resolving.define t) (Resolving.define t') := by
  rw [Resolving.define, Resolving.define, h.text]
  exact onSymbols fun _ _ hss => hss.define _

theorem inScope (h : Resolving.Moved R walk walk') :
    Resolving.Moved R (Resolving.inScope walk) (Resolving.inScope walk') := by
  refine (onSymbols fun _ _ hss => hss.enter).bind fun _ _ _ => h.bind fun _ _ hab => ?_
  exact (onSymbols fun _ _ hss => hss.exit).bind fun _ _ _ => pure hab

theorem declareParams {ts ts' : List Token} (h : List.Forall₂ Token.Moved ts ts') :
    Resolving.Moved (fun _ _ => True) (declareParams ts) (declareParams ts') := by
  induction h with
  | nil => exact pure trivial
  | cons ht _ ih => exact (declare ht .param).bind fun _ _ _ => (define ht).bind fun _ _ _ => ih

/-- A name that both walks find declared but not defined, or neither does. -/
theorem ofVariable (hK : ∀ t t', K t t' → t.Moved t') {t t' : Token} (h : K t t')
    (around : Surroundings) (n n' : Option Nat) :
    Resolving.Moved (Expr.Moved K) (Expr.resolve around (.variable t n))
      (Expr.resolve around (.variable t' n')) := by
  have hvariable : Resolving.Moved (Expr.Moved K)
      (Resolving.hops t.text >>= fun n => Pure.pure (.variable t n))
      (Resolving.hops t.text >>= fun n => Pure.pure (.variable t' n)) := by
    refine (hops t.text).bind fun n _ heq => ?_
    subst heq
    exact pure (.variable h n)
  rw [Expr.resolve, Expr.resolve, (hK t t' h).text]
  refine symbols.bind fun ss ss' hss => ?_
  have hcurrent := hss.current? t.text
  generalize ss.current? t.text = s?, ss'.current? t.text = s'? at hcurrent
  cases hcurrent with
  | none => exact hvariable
  | some hs =>
    dsimp only
    rw [hs.defined]
    exact reportIf _ (hK t t' h) hvariable

theorem ofSelf (hK : ∀ t t', K t t' → t.Moved t') {t t' : Token} (h : K t t')
    (around : Surroundings) (n n' : Option Nat) :
    Resolving.Moved (Expr.Moved K) (Expr.resolve around (.self t n))
      (Expr.resolve around (.self t' n')) := by
  rw [Expr.resolve, Expr.resolve]
  split
  · refine (hops selfName).bind fun n _ heq => ?_
    subst heq
    exact pure (.self h n)
  · exact (report _ (hK t t' h)).bind fun _ _ _ => pure (.self h none)

end Resolving.Moved

open Resolving.Moved

mutual

theorem Expr.Moved.resolve (hK : ∀ t t', K t t' → t.Moved t') {e e' : Expr} (h : Expr.Moved K e e')
    (around : Surroundings) :
    Resolving.Moved (Expr.Moved K) (e.resolve around) (e'.resolve around) := by
  match h with
  | .hole =>
    rw [Expr.resolve]
    exact .pure .hole
  | .literal ht value =>
    rw [Expr.resolve, Expr.resolve]
    exact .pure (.literal ht value)
  | .variable ht n => exact ofVariable hK ht around n n
  | .assign ht hvalue _ =>
    rw [Expr.resolve, Expr.resolve, (hK _ _ ht).text]
    refine (hvalue.resolve hK around).bind fun v v' hv => (hops _).bind fun n _ heq => ?_
    subst heq
    exact .pure (.assign ht hv n)
  | .unary ht hright =>
    rw [Expr.resolve, Expr.resolve]
    exact (hright.resolve hK around).bind fun _ _ hr => .pure (.unary ht hr)
  | .binary hleft ht hright =>
    rw [Expr.resolve, Expr.resolve]
    refine (hleft.resolve hK around).bind fun _ _ hl => ?_
    exact (hright.resolve hK around).bind fun _ _ hr => .pure (.binary hl ht hr)
  | .logical hleft ht hright =>
    rw [Expr.resolve, Expr.resolve]
    refine (hleft.resolve hK around).bind fun _ _ hl => ?_
    exact (hright.resolve hK around).bind fun _ _ hr => .pure (.logical hl ht hr)
  | .count ht htarget hname _ =>
    rw [Expr.resolve, Expr.resolve, (hK _ _ hname).text]
    refine (htarget.resolve hK around).bind fun v v' hv => (hops _).bind fun n _ heq => ?_
    subst heq
    exact .pure (.count ht hv hname n)
  | .call hcallee ht hargs =>
    rw [Expr.resolve, Expr.resolve]
    refine (hcallee.resolve hK around).bind fun _ _ hc => ?_
    exact (Expr.Moved.resolveList hK hargs around).bind fun _ _ has => .pure (.call hc ht has)
  | .group ht hinner =>
    rw [Expr.resolve, Expr.resolve]
    exact (hinner.resolve hK around).bind fun _ _ hi => .pure (.group ht hi)
  | .self ht n => exact ofSelf hK ht around n n
  | .get hobject ht =>
    rw [Expr.resolve, Expr.resolve]
    exact (hobject.resolve hK around).bind fun _ _ ho => .pure (.get ho ht)
  | .set hobject ht hvalue =>
    rw [Expr.resolve, Expr.resolve]
    refine (hvalue.resolve hK around).bind fun _ _ hv => ?_
    exact (hobject.resolve hK around).bind fun _ _ ho => .pure (.set ho ht hv)
  | .parent ht =>
    rw [Expr.resolve, Expr.resolve]
    refine symbols.bind fun ss ss' hss => ?_
    rw [hss.isGlobal]
    exact reportIf _ (hK _ _ ht) (.pure (.parent ht))
  | .global ht =>
    rw [Expr.resolve, Expr.resolve]
    exact .pure (.global ht)
termination_by sizeOf e

theorem Expr.Moved.resolveList (hK : ∀ t t', K t t' → t.Moved t') {es es' : List Expr}
    (h : List.Forall₂ (Expr.Moved K) es es') (around : Surroundings) :
    Resolving.Moved (List.Forall₂ (Expr.Moved K)) (Expr.resolveList around es)
      (Expr.resolveList around es') := by
  match h with
  | .nil =>
    rw [Expr.resolveList]
    exact .pure .nil
  | .cons he hes =>
    rw [Expr.resolveList, Expr.resolveList]
    refine (he.resolve hK around).bind fun _ _ h₁ => ?_
    exact (Expr.Moved.resolveList hK hes around).bind fun _ _ h₂ => .pure (.cons h₁ h₂)
termination_by sizeOf es

end

theorem Expr.Moved.resolveOptional (hK : ∀ t t', K t t' → t.Moved t') {e? e'? : Option Expr}
    (h : Option.Rel (Expr.Moved K) e? e'?) (around : Surroundings) :
    Resolving.Moved (Option.Rel (Expr.Moved K)) (Expr.resolveOptional around e?)
      (Expr.resolveOptional around e'?) := by
  cases h with
  | none => exact .pure .none
  | some he => exact (he.resolve hK around).bind fun _ _ h => .pure (.some h)

theorem Definition.Moved.resolveMembers (hK : ∀ t t', K t t' → t.Moved t')
    {ds ds' : List Definition} (h : List.Forall₂ (Definition.Moved K) ds ds')
    (around : Surroundings) :
    Resolving.Moved (List.Forall₂ (Definition.Moved K)) (Definition.resolveMembers around ds)
      (Definition.resolveMembers around ds') := by
  induction h with
  | nil => exact .pure .nil
  | @cons d d' _ _ hd _ ih =>
    obtain ⟨token, name, initial⟩ := d
    obtain ⟨token', name', initial'⟩ := d'
    refine (Expr.Moved.resolveOptional hK hd.initial around).bind fun v v' hv => ?_
    refine (declare hd.name .variable).bind fun _ _ _ => (define hd.name).bind fun _ _ _ => ?_
    exact ih.bind fun _ _ hrest => .pure (.cons ⟨hd.token, hd.name, hv⟩ hrest)

mutual

theorem Stmt.Moved.resolve (hK : ∀ t t', K t t' → t.Moved t') {s s' : Stmt}
    (h : Stmt.Moved K s s') (around : Surroundings) :
    Resolving.Moved (Stmt.Moved K) (s.resolve around) (s'.resolve around) := by
  match h with
  | .hole =>
    rw [Stmt.resolve]
    exact .pure .hole
  | .expression ht hvalue =>
    rw [Stmt.resolve, Stmt.resolve]
    exact (hvalue.resolve hK around).bind fun _ _ hv => .pure (.expression ht hv)
  | .print ht hvalue =>
    rw [Stmt.resolve, Stmt.resolve]
    exact (hvalue.resolve hK around).bind fun _ _ hv => .pure (.print ht hv)
  | @Stmt.Moved.define _ d d' hd =>
    obtain ⟨token, name, initial⟩ := d
    obtain ⟨token', name', initial'⟩ := d'
    rw [Stmt.resolve, Stmt.resolve]
    refine (declare hd.name .variable).bind fun _ _ _ => ?_
    refine (Expr.Moved.resolveOptional hK hd.initial around).bind fun v v' hv => ?_
    exact (Resolving.Moved.define hd.name).bind fun _ _ _ =>
      .pure (.define ⟨hd.token, hd.name, hv⟩)
  | .block ht hbody =>
    rw [Stmt.resolve, Stmt.resolve]
    exact (Stmt.Moved.resolveList hK hbody around).inScope.bind fun _ _ hb => .pure (.block ht hb)
  | .operation ho =>
    rw [Stmt.resolve, Stmt.resolve]
    refine (declare ho.name .operation).bind fun _ _ _ => ?_
    refine (Resolving.Moved.define ho.name).bind fun _ _ _ => ?_
    exact (ho.resolve hK around).bind fun _ _ h => .pure (.operation h)
  | .conditional ht hcondition hbranch harms hotherwise =>
    rw [Stmt.resolve, Stmt.resolve]
    refine (hcondition.resolve hK around).bind fun _ _ hc => ?_
    refine (hbranch.resolve hK around).bind fun _ _ hb => ?_
    refine (Arm.Moved.resolveList hK harms around).bind fun _ _ has => ?_
    match hotherwise with
    | .none => exact .pure (.conditional ht hc hb has .none)
    | .some hlast =>
      exact (hlast.resolve hK around).bind fun _ _ hl =>
        .pure (.conditional ht hc hb has (.some hl))
  | .arm ha =>
    rw [Stmt.resolve, Stmt.resolve]
    exact (ha.resolve hK around).bind fun _ _ h => .pure (.arm h)
  | .loop ht hcondition hbody =>
    rw [Stmt.resolve, Stmt.resolve]
    refine (hcondition.resolve hK around).bind fun _ _ hc => ?_
    exact (hbody.resolve hK around).bind fun _ _ hb => .pure (.loop ht hc hb)
  | .return ht hvalue =>
    rw [Stmt.resolve, Stmt.resolve]
    refine reportIf _ ht ?_
    exact (Expr.Moved.resolveOptional hK hvalue around).bind fun _ _ hv => .pure (.return ht hv)
  | .object ht hname hmethods =>
    rw [Stmt.resolve, Stmt.resolve]
    refine (declare hname .object).bind fun _ _ _ => ?_
    refine (Resolving.Moved.define hname).bind fun _ _ _ => ?_
    refine Resolving.Moved.bind (R := List.Forall₂ (Operation.Moved K)) (inScope ?_)
      fun _ _ hms => .pure (.object ht hname hms)
    refine (onSymbols fun _ _ hss => ?_).bind fun _ _ _ => Operation.Moved.resolveList hK hmethods _
    apply Symbols.Moved.define
    exact hss.declare ⟨rfl, rfl, rfl⟩
  | .enum ht hname helements =>
    rw [Stmt.resolve, Stmt.resolve]
    refine (declare hname .enum).bind fun _ _ _ => ?_
    exact (Resolving.Moved.define hname).bind fun _ _ _ => .pure (.enum ht hname helements)
  | .form ht hname hmembers =>
    rw [Stmt.resolve, Stmt.resolve]
    refine (declare hname .form).bind fun _ _ _ => ?_
    refine (Resolving.Moved.define hname).bind fun _ _ _ => ?_
    exact (Definition.Moved.resolveMembers hK hmembers around).bind fun _ _ hds =>
      .pure (.form ht hname hds)
termination_by sizeOf s

theorem Stmt.Moved.resolveList (hK : ∀ t t', K t t' → t.Moved t') {ss ss' : List Stmt}
    (h : List.Forall₂ (Stmt.Moved K) ss ss') (around : Surroundings) :
    Resolving.Moved (List.Forall₂ (Stmt.Moved K)) (Stmt.resolveList around ss)
      (Stmt.resolveList around ss') := by
  match h with
  | .nil =>
    rw [Stmt.resolveList]
    exact .pure .nil
  | .cons hs hss =>
    rw [Stmt.resolveList, Stmt.resolveList]
    refine (hs.resolve hK around).bind fun _ _ h₁ => ?_
    exact (Stmt.Moved.resolveList hK hss around).bind fun _ _ h₂ => .pure (.cons h₁ h₂)
termination_by sizeOf ss

theorem Operation.Moved.resolve (hK : ∀ t t', K t t' → t.Moved t') {o o' : Operation}
    (h : Operation.Moved K o o') (around : Surroundings) :
    Resolving.Moved (Operation.Moved K) (o.resolve around) (o'.resolve around) := by
  match h with
  | .mk ht hname hparams hbody =>
    rw [Operation.resolve, Operation.resolve]
    refine Resolving.Moved.bind (R := List.Forall₂ (Stmt.Moved K)) (inScope ?_)
      fun _ _ hb => .pure (.mk ht hname hparams hb)
    exact (Resolving.Moved.declareParams hparams).bind fun _ _ _ =>
      Stmt.Moved.resolveList hK hbody _
termination_by sizeOf o

theorem Operation.Moved.resolveList (hK : ∀ t t', K t t' → t.Moved t') {os os' : List Operation}
    (h : List.Forall₂ (Operation.Moved K) os os') (around : Surroundings) :
    Resolving.Moved (List.Forall₂ (Operation.Moved K)) (Operation.resolveList around os)
      (Operation.resolveList around os') := by
  match h with
  | .nil =>
    rw [Operation.resolveList]
    exact .pure .nil
  | .cons ho hos =>
    rw [Operation.resolveList, Operation.resolveList]
    refine (ho.resolve hK around).bind fun _ _ h₁ => ?_
    exact (Operation.Moved.resolveList hK hos around).bind fun _ _ h₂ => .pure (.cons h₁ h₂)
termination_by sizeOf os

theorem Arm.Moved.resolve (hK : ∀ t t', K t t' → t.Moved t') {a a' : Arm} (h : Arm.Moved K a a')
    (around : Surroundings) :
    Resolving.Moved (Arm.Moved K) (a.resolve around) (a'.resolve around) := by
  match h with
  | .mk ht hcondition hbranch =>
    rw [Arm.resolve, Arm.resolve]
    refine (hcondition.resolve hK around).bind fun _ _ hc => ?_
    exact (hbranch.resolve hK around).bind fun _ _ hb => .pure (.mk ht hc hb)
termination_by sizeOf a

theorem Arm.Moved.resolveList (hK : ∀ t t', K t t' → t.Moved t') {as as' : List Arm}
    (h : List.Forall₂ (Arm.Moved K) as as') (around : Surroundings) :
    Resolving.Moved (List.Forall₂ (Arm.Moved K)) (Arm.resolveList around as)
      (Arm.resolveList around as') := by
  match h with
  | .nil =>
    rw [Arm.resolveList]
    exact .pure .nil
  | .cons ha has =>
    rw [Arm.resolveList, Arm.resolveList]
    refine (ha.resolve hK around).bind fun _ _ h₁ => ?_
    exact (Arm.Moved.resolveList hK has around).bind fun _ _ h₂ => .pure (.cons h₁ h₂)
termination_by sizeOf as

end

/-- Programs that are the same up to rows are resolved alike. -/
theorem Program.Moved.resolve (hK : ∀ t t', K t t' → t.Moved t') {p p' : Program}
    (h : Program.Moved K p p') :
    Program.Moved K p.resolve.program p'.resolve.program ∧
      List.Forall₂ Diagnostic.Moved p.resolve.diagnostics p'.resolve.diagnostics := by
  obtain ⟨hprogram, hend⟩ := Stmt.Moved.resolveList hK h ⟨false, false⟩ ⟨[], []⟩ ⟨[], []⟩
    ⟨.nil, .nil⟩
  exact ⟨hprogram, hend.diagnostics⟩

end Treescript
