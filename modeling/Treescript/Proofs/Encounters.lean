import Mathlib.Data.List.Forall2
import Treescript.Proofs.ResolverWalk

/-!
# What the walk has open

The walk of resolution as a list: everything it comes to, each with the symbol scopes that are open
when it gets there. The states in between are those of the walk itself. The list runs along the
visits of the text, and the open scopes fit the place of each visit.
-/

namespace Treescript

structure Encounter where
  item : Item
  symbols : Symbols

namespace Resolution

def after {α : Type} (r : Resolution) (walk : Resolving α) : Resolution := (walk.run r).2

def enter (r : Resolution) : Resolution := { r with symbols := r.symbols.enter }

def encounter (r : Resolution) (item : Item) : Encounter := ⟨item, r.symbols⟩

end Resolution

open Resolving

mutual

def Expr.encounters (around : Surroundings) (r : Resolution) : Expr → List Encounter
  | e@(.assign _ value _) => r.encounter (.node (.expr e)) :: value.encounters around r
  | e@(.unary _ right) => r.encounter (.node (.expr e)) :: right.encounters around r
  | e@(.binary left _ right) | e@(.logical left _ right) =>
    r.encounter (.node (.expr e)) :: (left.encounters around r ++
      right.encounters around (r.after (left.resolve around)))
  | e@(.count _ target _ _) => r.encounter (.node (.expr e)) :: target.encounters around r
  | e@(.call callee _ args) =>
    r.encounter (.node (.expr e)) :: (callee.encounters around r ++
      Expr.encountersOfList around (r.after (callee.resolve around)) args)
  | e@(.group _ inner) => r.encounter (.node (.expr e)) :: inner.encounters around r
  | e@(.get object _) => r.encounter (.node (.expr e)) :: object.encounters around r
  | e@(.set object _ value) =>
    r.encounter (.node (.expr e)) :: (value.encounters around r ++
      object.encounters around (r.after (value.resolve around)))
  | .hole => [r.encounter (.node (.expr .hole))]
  | e@(.literal ..) | e@(.variable ..) | e@(.self ..) | e@(.parent ..) | e@(.global ..) =>
    [r.encounter (.node (.expr e))]

def Expr.encountersOfList (around : Surroundings) (r : Resolution) :
    List Expr → List Encounter
  | [] => []
  | e :: es =>
    e.encounters around r ++ Expr.encountersOfList around (r.after (e.resolve around)) es

end

def Expr.encountersOptional (around : Surroundings) (r : Resolution) :
    Option Expr → List Encounter
  | none => []
  | some e => e.encounters around r

def Token.encountersOfParams (r : Resolution) : List Token → List Encounter
  | [] => []
  | param :: params =>
    r.encounter (.declaration param) :: Token.encountersOfParams
      (r.after do declare param .param; define param) params

def Definition.encountersOfMembers (around : Surroundings) (r : Resolution) :
    List Definition → List Encounter
  | [] => []
  | d :: rest =>
    let r' := r.after (Expr.resolveOptional around d.initial)
    r.encounter (.member d) :: Expr.encountersOptional around r d.initial ++
      r'.encounter (.declaration d.name) :: Definition.encountersOfMembers around
        (r'.after do declare d.name .variable; define d.name) rest

mutual

def Stmt.encounters (around : Surroundings) (r : Resolution) : Stmt → List Encounter
  | .hole => [r.encounter (.node (.stmt .hole))]
  | s@(.expression _ value) | s@(.print _ value) =>
    r.encounter (.node (.stmt s)) :: value.encounters around r
  | s@(.define d) =>
    r.encounter (.node (.stmt s)) :: r.encounter (.declaration d.name) ::
      Expr.encountersOptional around (r.after (declare d.name .variable)) d.initial
  | s@(.block _ body) =>
    r.encounter (.node (.stmt s)) :: Stmt.encountersOfList around r.enter body
  | s@(.operation o) =>
    r.encounter (.node (.stmt s)) :: r.encounter (.declaration o.name) ::
      o.encounters around (r.after do declare o.name .operation; define o.name)
  | s@(.conditional _ condition branch arms none) =>
    let r₁ := r.after (condition.resolve around)
    r.encounter (.node (.stmt s)) :: condition.encounters around r ++ branch.encounters around r₁ ++
      Arm.encountersOfList around (r₁.after (branch.resolve around)) arms
  | s@(.conditional _ condition branch arms (some otherwise)) =>
    let r₁ := r.after (condition.resolve around)
    let r₂ := r₁.after (branch.resolve around)
    r.encounter (.node (.stmt s)) :: condition.encounters around r ++ branch.encounters around r₁ ++
      Arm.encountersOfList around r₂ arms ++
      otherwise.encounters around (r₂.after (Arm.resolveList around arms))
  | s@(.arm a) => r.encounter (.node (.stmt s)) :: a.encounters around r
  | s@(.loop _ condition body) =>
    r.encounter (.node (.stmt s)) :: condition.encounters around r ++
      body.encounters around (r.after (condition.resolve around))
  | s@(.return keyword value) =>
    r.encounter (.node (.stmt s)) :: Expr.encountersOptional around
      (r.after do if !around.inOperation then report .returnOutsideOperation keyword) value
  | s@(.object _ name methods) =>
    let r' := r.after do declare name .object; define name
    r.encounter (.node (.stmt s)) :: r.encounter (.declaration name) ::
      Operation.encountersOfList { around with inObject := true }
        (r'.enter.after (onSymbols fun ss =>
          (ss.declare ⟨selfName, .self, false, name.row⟩).define selfName)) methods
  | s@(.enum _ name _) => [r.encounter (.node (.stmt s)), r.encounter (.declaration name)]
  | s@(.form _ name members) =>
    r.encounter (.node (.stmt s)) :: r.encounter (.declaration name) ::
      Definition.encountersOfMembers around (r.after do declare name .form; define name) members

def Stmt.encountersOfList (around : Surroundings) (r : Resolution) : List Stmt → List Encounter
  | [] => []
  | s :: ss =>
    s.encounters around r ++ Stmt.encountersOfList around (r.after (s.resolve around)) ss

def Operation.encounters (around : Surroundings) (r : Resolution) : Operation → List Encounter
  | ⟨_, _, params, body⟩ =>
    Token.encountersOfParams r.enter params ++
      Stmt.encountersOfList { around with inOperation := true }
        (r.enter.after (declareParams params)) body

def Operation.encountersOfList (around : Surroundings) (r : Resolution) :
    List Operation → List Encounter
  | [] => []
  | o :: os =>
    r.encounter (.method o) :: o.encounters around r ++
      Operation.encountersOfList around (r.after (o.resolve around)) os

def Arm.encounters (around : Surroundings) (r : Resolution) : Arm → List Encounter
  | ⟨_, condition, branch⟩ =>
    condition.encounters around r ++
      branch.encounters around (r.after (condition.resolve around))

def Arm.encountersOfList (around : Surroundings) (r : Resolution) : List Arm → List Encounter
  | [] => []
  | a :: rest =>
    r.encounter (.node (.stmt (.arm a))) :: a.encounters around r ++
      Arm.encountersOfList around (r.after (a.resolve around)) rest

end

def Program.encounters (p : Program) : List Encounter :=
  Stmt.encountersOfList ⟨false, false⟩ ⟨[], []⟩ p

/-- The walk comes to what is visited, with the scopes open that are around the visit. -/
structure Encounter.Meets (c : Encounter) (v : Visit) : Prop where
  item : c.item = v.item
  symbols : c.symbols.Fits v.place

theorem Resolution.meets {r : Resolution} {P : Place} (hr : r.symbols.Fits P) (item : Item) :
    (r.encounter item).Meets ⟨item, P⟩ := ⟨rfl, hr⟩

theorem Resolves.fits {α : Type} {walk : Resolving α} {P Q : Place} {a : α} {vs : List Visit}
    (h : Resolves walk P a vs Q) {r : Resolution} (hr : r.symbols.Fits P) :
    (r.after walk).symbols.Fits Q := by
  obtain ⟨ss, hs, hrun⟩ := h r hr
  rw [Resolution.after, hrun]
  exact hs

variable {P : Place} {r : Resolution}

theorem Resolution.fits_named (hd : P.defining = none) (hr : r.symbols.Fits P) (name : Token)
    (kind : SymbolKind) :
    (r.after do declare name kind; define name).symbols.Fits (P.after [name.text]) :=
  ((Resolves.declare hd name kind).bind (Resolves.define hd name)).fits hr

open List (Forall₂ rel_append)

mutual

theorem Expr.encounters_meet {P : Place} {r : Resolution} (hr : r.symbols.Fits P) (e : Expr) :
    Forall₂ Encounter.Meets (e.encounters P.around r) (e.visits P) := by
  match e with
  | .hole | .literal .. | .variable .. | .self .. | .parent .. | .global .. =>
    exact .cons (Resolution.meets hr _) .nil
  | .assign _ inner _ | .unary _ inner | .count _ inner _ _ | .group _ inner | .get inner _ =>
    exact .cons (Resolution.meets hr _) (Expr.encounters_meet hr inner)
  | .binary first _ second | .logical first _ second | .set second _ first =>
    rw [Expr.visits, Expr.parts, List.map_cons, List.map_append]
    -- the second part is met in the state in which the walk leaves the first
    have hsecond := Expr.encounters_meet ((first.resolves P).fits hr) second
    exact .cons (Resolution.meets hr _) (rel_append (Expr.encounters_meet hr first) hsecond)
  | .call callee _ args =>
    rw [Expr.visits, Expr.parts, List.map_cons, List.map_append]
    have hargs := Expr.encountersOfList_meet ((callee.resolves P).fits hr) args
    exact .cons (Resolution.meets hr _) (rel_append (Expr.encounters_meet hr callee) hargs)

theorem Expr.encountersOfList_meet {P : Place} {r : Resolution} (hr : r.symbols.Fits P)
    (es : List Expr) :
    Forall₂ Encounter.Meets (Expr.encountersOfList P.around r es)
      ((Expr.partsOfList es).map fun part => ⟨.node (.expr part), P⟩) := by
  match es with
  | [] => exact .nil
  | e :: es =>
    rw [Expr.partsOfList, List.map_append]
    have hrest := Expr.encountersOfList_meet ((e.resolves P).fits hr) es
    exact rel_append (Expr.encounters_meet hr e) hrest

end

theorem Expr.encountersOptional_meet (hr : r.symbols.Fits P) (e? : Option Expr) :
    Forall₂ Encounter.Meets (Expr.encountersOptional P.around r e?)
      (Expr.visitsOptional P e?) := by
  cases e? with
  | none => exact .nil
  | some e => exact e.encounters_meet hr

theorem Token.encountersOfParams_meet (hd : P.defining = none) (hr : r.symbols.Fits P)
    (params : List Token) :
    Forall₂ Encounter.Meets (Token.encountersOfParams r params)
      (Token.visitsOfParams P params) := by
  induction params generalizing P r with
  | nil => exact .nil
  | cons param params ih =>
    exact .cons (Resolution.meets hr _) (ih hd (Resolution.fits_named hd hr param .param))

theorem Definition.encountersOfMembers_meet (hd : P.defining = none) (hr : r.symbols.Fits P)
    (ds : List Definition) :
    Forall₂ Encounter.Meets (Definition.encountersOfMembers P.around r ds)
      (Definition.visitsOfMembers P ds) := by
  induction ds generalizing P r with
  | nil => exact .nil
  | cons d rest ih =>
    have hinit := (Expr.resolvesOptional P d.initial).fits hr
    have hrest := ih (P := P.after [d.name.text]) hd
      (Resolution.fits_named hd hinit d.name .variable)
    exact .cons (Resolution.meets hr _) (rel_append (Expr.encountersOptional_meet hr d.initial)
      (.cons (Resolution.meets hinit _) hrest))

mutual

theorem Stmt.encounters_meet {P : Place} {r : Resolution} (hd : P.defining = none)
    (hr : r.symbols.Fits P) (s : Stmt) :
    Forall₂ Encounter.Meets (s.encounters P.around r) (s.visits P) := by
  match s with
  | .hole => exact .cons (Resolution.meets hr _) .nil
  | .expression _ value | .print _ value =>
    exact .cons (Resolution.meets hr _) (value.encounters_meet hr)
  | .define d =>
    have hinit := (Resolves.declare hd d.name .variable).fits hr
    exact .cons (Resolution.meets hr _) (.cons (Resolution.meets hr _)
      (Expr.encountersOptional_meet (P := P.initializer d.name.text) hinit d.initial))
  | .block _ body =>
    have hbody := Stmt.encountersOfList_meet (P := P.enter (Stmt.declaresList body))
      (r := r.enter) hd (hr.enter hd _) body
    exact .cons (Resolution.meets hr _) hbody
  | .operation o =>
    have ho := Operation.encounters_meet (P := P.after [o.name.text]) hd
      (Resolution.fits_named hd hr o.name .operation) o
    exact .cons (Resolution.meets hr _) (.cons (Resolution.meets hr _) ho)
  | .conditional _ condition branch arms none =>
    have hr₁ := (condition.resolves P).fits hr
    have hr₂ := (Stmt.resolves (P := P.child 0) hd branch).fits hr₁
    have hbranch := Stmt.encounters_meet (P := P.child 0) hd hr₁ branch
    have harms := Arm.encountersOfList_meet (P := (P.after branch.declares).child 1) hd hr₂ arms
    exact rel_append (rel_append (.cons (Resolution.meets hr _) (condition.encounters_meet hr))
      hbranch) harms
  | .conditional _ condition branch arms (some otherwise) =>
    have hr₁ := (condition.resolves P).fits hr
    have hr₂ := (Stmt.resolves (P := P.child 0) hd branch).fits hr₁
    have hr₃ := (Arm.resolvesList (P := (P.after branch.declares).child 1) hd arms).fits hr₂
    have hbranch := Stmt.encounters_meet (P := P.child 0) hd hr₁ branch
    have harms := Arm.encountersOfList_meet (P := (P.after branch.declares).child 1) hd hr₂ arms
    have hlast := Stmt.encounters_meet
      (P := ((P.after branch.declares).after (Arm.declaresList arms)).child 2) hd hr₃ otherwise
    rw [← Place.after_append] at hlast
    exact rel_append (rel_append (rel_append
      (.cons (Resolution.meets hr _) (condition.encounters_meet hr)) hbranch) harms) hlast
  | .arm a => exact .cons (Resolution.meets hr _) (Arm.encounters_meet hd hr a)
  | .loop _ condition body =>
    have hbody := Stmt.encounters_meet (P := P.child 0) hd ((condition.resolves P).fits hr) body
    exact rel_append (.cons (Resolution.meets hr _) (condition.encounters_meet hr)) hbody
  | .return keyword value =>
    refine .cons (Resolution.meets hr _) (Expr.encountersOptional_meet ?_ value)
    cases P.around.inOperation <;> exact hr
  | .object _ name methods =>
    have hnamed := Resolution.fits_named hd hr name .object
    have henter := Symbols.Fits.enter (P := P.after [name.text]) hd hnamed [selfName]
    have hself := Symbols.Fits.declare (P := (P.after [name.text]).enter [selfName]) hd henter
      ⟨selfName, .self, false, name.row⟩
    refine .cons (Resolution.meets hr _) (.cons (Resolution.meets hr _)
      (Operation.encountersOfList_meet (P := (P.after [name.text]).object) hd ?_ methods))
    exact Symbols.Fits.define (P := (P.after [name.text]).enter [selfName]) hd hself
  | .enum .. => exact .cons (Resolution.meets hr _) (.cons (Resolution.meets hr _) .nil)
  | .form _ name members =>
    have hmembers := Definition.encountersOfMembers_meet (P := P.after [name.text]) hd
      (Resolution.fits_named hd hr name .form) members
    exact .cons (Resolution.meets hr _) (.cons (Resolution.meets hr _) hmembers)

theorem Stmt.encountersOfList_meet {P : Place} {r : Resolution} (hd : P.defining = none)
    (hr : r.symbols.Fits P) (ss : List Stmt) :
    Forall₂ Encounter.Meets (Stmt.encountersOfList P.around r ss) (Stmt.visitsOfList P ss) := by
  match ss with
  | [] => exact .nil
  | s :: ss =>
    have hs := (Stmt.resolves (P := P.child 0) hd s).fits hr
    exact rel_append (Stmt.encounters_meet (P := P.child 0) hd hr s)
      (Stmt.encountersOfList_meet (P := (P.after s.declares).child 1) hd hs ss)

theorem Operation.encounters_meet {P : Place} {r : Resolution} (hd : P.defining = none)
    (hr : r.symbols.Fits P) (o : Operation) :
    Forall₂ Encounter.Meets (o.encounters P.around r) (o.visits P) := by
  match o with
  | ⟨token, name, params, body⟩ =>
    have henter : r.enter.symbols.Fits (P.operation ⟨token, name, params, body⟩) := hr.enter hd _
    have hparams := Token.encountersOfParams_meet
      (P := P.operation ⟨token, name, params, body⟩) hd henter params
    have hdeclared := (Token.resolves_declareParams
      (P := P.operation ⟨token, name, params, body⟩) hd params).fits henter
    have hbody := Stmt.encountersOfList_meet
      (P := (P.operation ⟨token, name, params, body⟩).after (params.map (·.text))) hd hdeclared body
    exact rel_append hparams hbody

theorem Operation.encountersOfList_meet {P : Place} {r : Resolution} (hd : P.defining = none)
    (hr : r.symbols.Fits P) (os : List Operation) :
    Forall₂ Encounter.Meets (Operation.encountersOfList P.around r os)
      (Operation.visitsOfList P os) := by
  match os with
  | [] => exact .nil
  | o :: os =>
    have ho := (Operation.resolves (P := P.child 0) hd o).fits hr
    exact rel_append (.cons (Resolution.meets (P := P.child 0) hr _)
      (Operation.encounters_meet (P := P.child 0) hd hr o))
      (Operation.encountersOfList_meet (P := P.child 1) hd ho os)

theorem Arm.encounters_meet {P : Place} {r : Resolution} (hd : P.defining = none)
    (hr : r.symbols.Fits P) (a : Arm) :
    Forall₂ Encounter.Meets (a.encounters P.around r) (a.visits P) := by
  match a with
  | ⟨_, condition, branch⟩ =>
    exact rel_append (condition.encounters_meet hr)
      (Stmt.encounters_meet hd ((condition.resolves P).fits hr) branch)

theorem Arm.encountersOfList_meet {P : Place} {r : Resolution} (hd : P.defining = none)
    (hr : r.symbols.Fits P) (as : List Arm) :
    Forall₂ Encounter.Meets (Arm.encountersOfList P.around r as) (Arm.visitsOfList P as) := by
  match as with
  | [] => exact .nil
  | a :: rest =>
    have ha := (Arm.resolves (P := P.child 0) hd a).fits hr
    exact rel_append (.cons (Resolution.meets (P := P.child 0) hr _)
      (Arm.encounters_meet (P := P.child 0) hd hr a))
      (Arm.encountersOfList_meet (P := (P.after a.declares).child 1) hd ha rest)

end

theorem Program.encounters_meet (program : Nat) (p : Program) :
    Forall₂ Encounter.Meets p.encounters (p.visits program) :=
  Stmt.encountersOfList_meet (P := .top program) rfl (Symbols.fits_top program) p

end Treescript
