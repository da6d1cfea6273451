import Treescript.Proofs.Annotation
import Treescript.Proofs.Coverage
import Treescript.Proofs.OpenScopes
import Treescript.Resolution

/-!
# The walk of resolution

`Resolves` is the contract of a part of the walk: from any state that fits the place where the part
begins, it ends with a given result in a state that fits the place where the part ends, and reports
the faults of the visits in between. Every part of the walk has one such contract, and together they
give resolution in closed form.
-/

namespace Treescript

/-- The rule that is broken at a visit, and the token at fault. -/
def Visit.fault? (v : Visit) : Option (Rule × Token) :=
  match v.item with
  | .declaration name =>
    if v.place.Declared 0 name.text then some (.duplicateDeclaration, name) else none
  | .node (.expr (.variable name _)) =>
    if v.place.isLocal ∧ v.place.defining = some name.text then some (.selfInitializer, name)
    else none
  | .node (.expr (.parent name)) =>
    if v.place.isLocal then none else some (.parentWithoutScope, name)
  | .node (.expr (.self keyword _)) =>
    if v.place.inObject then none else some (.selfOutsideObject, keyword)
  | .node (.stmt (.return keyword _)) =>
    if v.place.inOperation then none else some (.returnOutsideOperation, keyword)
  | _ => none

def Visit.diagnostics (vs : List Visit) : List Diagnostic :=
  vs.filterMap fun v => v.fault?.map fun fault => .of fault.1 fault.2

theorem Visit.diagnostics_append (vs ws : List Visit) :
    Visit.diagnostics (vs ++ ws) = Visit.diagnostics vs ++ Visit.diagnostics ws :=
  List.filterMap_append

open Resolving

/-- From any state that fits the place `P` the walk ends with the result `a` in a state that fits
`Q`, having reported what is wrong at the given visits. -/
def Resolves {α : Type} (walk : Resolving α) (P : Place) (a : α) (vs : List Visit) (Q : Place) :
    Prop :=
  ∀ r : Resolution, r.symbols.Fits P → ∃ ss : Symbols, ss.Fits Q ∧
    walk.run r = (a, ⟨ss, r.diagnostics ++ Visit.diagnostics vs⟩)

namespace Resolves

variable {α β : Type} {P Q R : Place}

protected theorem pure (a : α) : Resolves (pure a) P a [] P := by
  intro r hr
  exact ⟨r.symbols, hr, by simp [Visit.diagnostics]; rfl⟩

protected theorem bind {x : Resolving α} {f : α → Resolving β} {a : α} {b : β}
    {v w : List Visit} (hx : Resolves x P a v Q) (hf : Resolves (f a) Q b w R) :
    Resolves (x >>= f) P b (v ++ w) R := by
  intro r hr
  obtain ⟨ss, hs, hrun⟩ := hx r hr
  obtain ⟨tt, ht, hrun'⟩ := hf ⟨ss, r.diagnostics ++ Visit.diagnostics v⟩ hs
  refine ⟨tt, ht, ?_⟩
  rw [StateT.run_bind, hrun, Visit.diagnostics_append, ← List.append_assoc]
  exact hrun'

theorem report_of (v : Visit) (rule : Rule) (token : Token) (h : v.fault? = some (rule, token)) :
    Resolves (report rule token) P () [v] P := by
  intro r hr
  refine ⟨r.symbols, hr, ?_⟩
  simp only [Visit.diagnostics, List.filterMap_cons, h]
  rfl

theorem declare (hd : P.defining = none) (name : Token) (kind : SymbolKind) :
    Resolves (Resolving.declare name kind) P () [⟨.declaration name, P⟩]
      (P.initializer name.text) := by
  intro r hr
  refine ⟨_, hr.declare hd ⟨name.text, kind, false, name.row⟩, ?_⟩
  have hdecl := hr.declares_eq name.text
  by_cases h : P.Declared 0 name.text
  · simp only [h, decide_true] at hdecl
    simp [Resolving.declare, symbols, hdecl, report, onSymbols, Visit.diagnostics, Visit.fault?, h]
    rfl
  · simp only [h, decide_false] at hdecl
    simp [Resolving.declare, symbols, hdecl, report, onSymbols, Visit.diagnostics, Visit.fault?, h]
    rfl

theorem define (hd : P.defining = none) (name : Token) :
    Resolves (Resolving.define name) (P.initializer name.text) () [] (P.after [name.text]) := by
  intro r hr
  refine ⟨_, hr.define hd, ?_⟩
  simp [Resolving.define, onSymbols, Visit.diagnostics]
  rfl

end Resolves

/-- What the walk knows of the constructs around a place. -/
def Place.around (P : Place) : Surroundings := ⟨P.inOperation, P.inObject⟩

namespace Resolves

variable {α β : Type} {P Q R : Place}

theorem first {x : Resolving α} {f : α → Resolving β} {a : α} {b : β} {ws : List Visit}
    (hx : Resolves x P a [] Q) (hf : Resolves (f a) Q b ws R) : Resolves (x >>= f) P b ws R :=
  hx.bind hf

theorem last {x : Resolving α} {f : α → Resolving β} {a : α} {b : β} {vs : List Visit}
    (hx : Resolves x P a vs Q) (hf : Resolves (f a) Q b [] R) : Resolves (x >>= f) P b vs R := by
  have h := hx.bind hf
  rwa [List.append_nil] at h

theorem pass {x : Resolving α} {a : α} {vs : List Visit} {v : Visit} (hv : v.fault? = none)
    (hx : Resolves x P a vs Q) : Resolves x P a (v :: vs) Q := by
  intro r hr
  obtain ⟨ss, hs, hrun⟩ := hx r hr
  refine ⟨ss, hs, ?_⟩
  simpa only [Visit.diagnostics, List.filterMap_cons, hv, Option.map_none] using hrun

theorem hops (name : String) : Resolves (Resolving.hops name) P (P.distance? name) [] P := by
  intro r hr
  refine ⟨r.symbols, hr, ?_⟩
  simp [Resolving.hops, symbols, hr.hops?_eq, Visit.diagnostics]
  rfl

theorem ofVariable (name : Token) (hops : Option Nat) :
    Resolves (Expr.resolve P.around (.variable name hops)) P
      (.variable name (P.distance? name.text))
      [⟨.node (.expr (.variable name hops)), P⟩] P := by
  intro r hr
  refine ⟨r.symbols, hr, ?_⟩
  have hu := hr.current?_undefined_iff name.text
  cases hc : r.symbols.current? name.text with
  | none =>
    simp only [hc, Option.map_none, reduceCtorEq, false_iff] at hu
    simp [Expr.resolve, symbols, hc, Resolving.hops, hr.hops?_eq, Visit.diagnostics,
      Visit.fault?, hu]
    rfl
  | some symbol =>
    cases hs : symbol.defined with
    | true =>
      simp only [hc, Option.map_some, hs, Option.some.injEq, Bool.true_eq_false, false_iff] at hu
      simp [Expr.resolve, symbols, hc, hs, Resolving.hops, hr.hops?_eq, Visit.diagnostics,
        Visit.fault?, hu]
      rfl
    | false =>
      simp only [hc, Option.map_some, hs, true_iff] at hu
      simp [Expr.resolve, symbols, hc, hs, Resolving.hops, hr.hops?_eq, report, Visit.diagnostics,
        Visit.fault?, hu]
      rfl

theorem ofSelf (keyword : Token) (hops : Option Nat) :
    Resolves (Expr.resolve P.around (.self keyword hops)) P
      (.self keyword (Numbering.ofSelf Place.distance? P))
      [⟨.node (.expr (.self keyword hops)), P⟩] P := by
  cases ho : P.inObject with
  | true =>
    have hv : Visit.fault? ⟨.node (.expr (.self keyword hops)), P⟩ = none := by
      simp [Visit.fault?, ho]
    have h := (Resolves.hops (P := P) selfName).first
      (f := fun n => pure (Expr.self keyword n)) (Resolves.pure (P := P) _)
    simpa [Expr.resolve, Place.around, ho, Numbering.ofSelf] using h.pass hv
  | false =>
    have hv : Visit.fault? ⟨.node (.expr (.self keyword hops)), P⟩ =
        some (.selfOutsideObject, keyword) := by simp [Visit.fault?, ho]
    have h := (Resolves.report_of _ _ _ hv (P := P)).last
      (f := fun _ => pure (Expr.self keyword none)) (Resolves.pure (P := P) _)
    simpa [Expr.resolve, Place.around, ho, Numbering.ofSelf] using h

theorem ofParent (name : Token) :
    Resolves (Expr.resolve P.around (.parent name)) P (.parent name)
      [⟨.node (.expr (.parent name)), P⟩] P := by
  intro r hr
  refine ⟨r.symbols, hr, ?_⟩
  have hg := hr.isGlobal_eq
  cases hl : P.isLocal with
  | true =>
    simp only [hl, Bool.not_true] at hg
    simp [Expr.resolve, symbols, hg, Visit.diagnostics, Visit.fault?, hl]
    rfl
  | false =>
    simp only [hl, Bool.not_false] at hg
    simp [Expr.resolve, symbols, hg, report, Visit.diagnostics, Visit.fault?, hl]
    rfl

end Resolves

mutual

theorem Expr.resolves (P : Place) (e : Expr) :
    Resolves (e.resolve P.around) P (e.annotate Place.distance? P) (e.visits P) P := by
  match e with
  | .hole | .literal .. | .global .. => exact (Resolves.pure _).pass rfl
  | .variable name hops => exact .ofVariable name hops
  | .self keyword hops => exact .ofSelf keyword hops
  | .parent name => exact .ofParent name
  | .assign name value _ =>
    exact .pass rfl ((Expr.resolves P value).last ((Resolves.hops _).first (.pure _)))
  | .unary _ right => exact .pass rfl ((Expr.resolves P right).last (.pure _))
  | .binary left _ right | .logical left _ right =>
    rw [Expr.visits, Expr.parts, List.map_cons, List.map_append]
    exact .pass rfl ((Expr.resolves P left).bind ((Expr.resolves P right).last (.pure _)))
  | .count _ target name _ =>
    exact .pass rfl ((Expr.resolves P target).last ((Resolves.hops _).first (.pure _)))
  | .call callee _ args =>
    rw [Expr.visits, Expr.parts, List.map_cons, List.map_append]
    exact .pass rfl ((Expr.resolves P callee).bind ((Expr.resolvesList P args).last (.pure _)))
  | .group _ inner => exact .pass rfl ((Expr.resolves P inner).last (.pure _))
  | .get object _ => exact .pass rfl ((Expr.resolves P object).last (.pure _))
  | .set object _ value =>
    rw [Expr.visits, Expr.parts, List.map_cons, List.map_append]
    exact .pass rfl ((Expr.resolves P value).bind ((Expr.resolves P object).last (.pure _)))

theorem Expr.resolvesList (P : Place) (es : List Expr) :
    Resolves (Expr.resolveList P.around es) P (Expr.annotateList Place.distance? P es)
      ((Expr.partsOfList es).map fun part => ⟨.node (.expr part), P⟩) P := by
  match es with
  | [] => exact .pure _
  | e :: es =>
    rw [Expr.partsOfList, List.map_append]
    exact (Expr.resolves P e).bind ((Expr.resolvesList P es).last (.pure _))

end

theorem Expr.resolvesOptional (P : Place) (e? : Option Expr) :
    Resolves (Expr.resolveOptional P.around e?) P (e?.map (·.annotate Place.distance? P))
      (Expr.visitsOptional P e?) P := by
  cases e? with
  | none => exact .pure _
  | some e => exact (e.resolves P).last (.pure _)

theorem Token.resolves_declareParams {P : Place} (hd : P.defining = none) (params : List Token) :
    Resolves (declareParams params) P () (Token.visitsOfParams P params)
      (P.after (params.map (·.text))) := by
  induction params generalizing P with
  | nil => rw [List.map_nil, Place.after_nil]; exact .pure _
  | cons param params ih =>
    rw [List.map_cons, Place.after_cons]
    exact (Resolves.declare hd param .param).bind ((Resolves.define hd param).first (ih hd))

theorem Definition.resolves_members {P : Place} (hd : P.defining = none) (ds : List Definition) :
    Resolves (Definition.resolveMembers P.around ds) P
      (Definition.annotateMembers Place.distance? P ds) (Definition.visitsOfMembers P ds)
      (P.after (ds.map (·.name.text))) := by
  induction ds generalizing P with
  | nil => rw [List.map_nil, Place.after_nil]; exact .pure _
  | cons d ds ih =>
    rw [List.map_cons, Place.after_cons, Definition.visitsOfMembers]
    rw [Definition.resolveMembers, Definition.annotateMembers]
    refine .pass rfl ?_
    refine (Expr.resolvesOptional P d.initial).bind ?_
    refine (Resolves.declare hd d.name .variable).bind (v := [_]) ?_
    refine (Resolves.define hd d.name).first ?_
    exact (ih (P := P.after [d.name.text]) hd).last (.pure _)

theorem Resolves.inScope {α : Type} {P Q : Place} {walk : Resolving α} {a : α} {vs : List Visit}
    {layer : Layer} (names : List String) (hd : P.defining = none)
    (hq : Q.layers = layer :: P.layers) (h : Resolves walk (P.enter names) a vs Q) :
    Resolves (Resolving.inScope walk) P a vs P := by
  intro r hr
  obtain ⟨ss, hs, hrun⟩ := h ⟨r.symbols.enter, r.diagnostics⟩ (hr.enter hd names)
  refine ⟨ss.exit, hs.exit hd hq, ?_⟩
  simp only [Resolving.inScope, onSymbols, StateT.run_bind, StateT.run_modify, pure_bind, hrun]
  rfl

theorem Resolves.ofReturn {P : Place} (keyword : Token) (value : Option Expr) :
    Resolves (Stmt.resolve P.around (.return keyword value)) P
      (Stmt.annotate Place.distance? P (.return keyword value))
      (Stmt.visits P (.return keyword value)) P := by
  have hv := (Expr.resolvesOptional P value).last
    (f := fun value => pure (Stmt.return keyword value)) (Resolves.pure (P := P) _)
  simp only [Stmt.visits, Stmt.annotate]
  cases ho : P.inOperation with
  | true =>
    refine .pass (by simp [Visit.fault?, ho]) ?_
    rw [Stmt.resolve, show P.around.inOperation = true from ho]
    exact hv
  | false =>
    have hr := Resolves.report_of (P := P) ⟨.node (.stmt (.return keyword value)), P⟩
      .returnOutsideOperation keyword (by simp [Visit.fault?, ho])
    rw [Stmt.resolve, show P.around.inOperation = false from ho]
    exact hr.bind hv

theorem Resolves.inObject {α : Type} {P : Place} {walk : Resolving α} {a : α} {vs : List Visit}
    (hd : P.defining = none) (row : Int) (h : Resolves walk P.object a vs P.object) :
    Resolves (Resolving.inScope do
      onSymbols fun ss => (ss.declare ⟨selfName, .self, false, row⟩).define selfName
      walk) P a vs P := by
  refine Resolves.inScope [selfName] hd rfl (.first (a := ()) ?_ h)
  intro r hr
  have hs := Symbols.Fits.declare (P := P.enter [selfName]) hd hr ⟨selfName, .self, false, row⟩
  have hf := Symbols.Fits.define (P := P.enter [selfName]) hd hs
  exact ⟨_, hf, by simp [onSymbols, Visit.diagnostics]; rfl⟩

mutual

theorem Stmt.resolves {P : Place} (hd : P.defining = none) (s : Stmt) :
    Resolves (s.resolve P.around) P (s.annotate Place.distance? P) (s.visits P)
      (P.after s.declares) := by
  match s with
  | .hole =>
    simp only [Stmt.resolve, Stmt.annotate, Stmt.visits, Stmt.declares, Place.after_nil]
    exact .pass rfl (.pure _)
  | .expression _ value | .print _ value =>
    simp only [Stmt.resolve, Stmt.annotate, Stmt.visits, Stmt.declares, Place.after_nil]
    exact .pass rfl ((value.resolves P).last (.pure _))
  | .define d =>
    simp only [Stmt.resolve, Stmt.annotate, Stmt.visits, Stmt.declares]
    refine .pass rfl ((Resolves.declare hd d.name .variable).bind (v := [_]) ?_)
    refine (Expr.resolvesOptional (P.initializer d.name.text) d.initial).last ?_
    exact (Resolves.define hd d.name).first (.pure _)
  | .block _ body =>
    simp only [Stmt.resolve, Stmt.annotate, Stmt.visits, Stmt.declares, Place.after_nil]
    have h := Stmt.resolvesList (P := P.enter (Stmt.declaresList body)) hd body
    exact .pass rfl ((Resolves.inScope _ hd rfl h).last (.pure _))
  | .operation o =>
    simp only [Stmt.resolve, Stmt.annotate, Stmt.visits, Stmt.declares]
    refine .pass rfl ((Resolves.declare hd o.name .operation).bind (v := [_]) ?_)
    refine (Resolves.define hd o.name).first ?_
    exact (Operation.resolves (P := P.after [o.name.text]) hd o).last (.pure _)
  | .conditional _ condition branch arms none =>
    simp only [Stmt.resolve, Stmt.annotate, Stmt.visits, Stmt.declares, List.append_assoc,
      List.cons_append, Place.after_append]
    refine .pass rfl ((condition.resolves P).bind ?_)
    refine Resolves.bind (Stmt.resolves (P := P.child 0) hd branch) ?_
    exact Resolves.last (Arm.resolvesList (P := (P.after branch.declares).child 1) hd arms)
      (.pure _)
  | .conditional _ condition branch arms (some otherwise) =>
    simp only [Stmt.resolve, Stmt.annotate, Stmt.visits, Stmt.declares, List.append_assoc,
      List.cons_append, Place.after_append]
    refine .pass rfl ((condition.resolves P).bind ?_)
    refine Resolves.bind (Stmt.resolves (P := P.child 0) hd branch) ?_
    refine Resolves.bind (Arm.resolvesList (P := (P.after branch.declares).child 1) hd arms) ?_
    exact Resolves.last (Stmt.resolves
      (P := ((P.after branch.declares).after (Arm.declaresList arms)).child 2) hd otherwise)
      (.pure _)
  | .arm a =>
    simp only [Stmt.resolve, Stmt.annotate, Stmt.visits, Stmt.declares]
    exact .pass rfl ((Arm.resolves hd a).last (.pure _))
  | .loop _ condition body =>
    simp only [Stmt.resolve, Stmt.annotate, Stmt.visits, Stmt.declares, List.cons_append]
    refine .pass rfl ((condition.resolves P).bind ?_)
    exact Resolves.last (Stmt.resolves (P := P.child 0) hd body) (.pure _)
  | .return keyword value =>
    simp only [Stmt.declares, Place.after_nil]
    exact .ofReturn keyword value
  | .object _ name methods =>
    simp only [Stmt.resolve, Stmt.annotate, Stmt.visits, Stmt.declares]
    refine .pass rfl ((Resolves.declare hd name .object).bind (v := [_]) ?_)
    refine (Resolves.define hd name).first ?_
    have h := Operation.resolvesList (P := (P.after [name.text]).object) hd methods
    exact (Resolves.inObject (P := P.after [name.text]) hd _ h).last (.pure _)
  | .enum _ name _ =>
    simp only [Stmt.resolve, Stmt.annotate, Stmt.visits, Stmt.declares]
    refine .pass rfl ((Resolves.declare hd name .enum).last ?_)
    exact (Resolves.define hd name).first (.pure _)
  | .form _ name members =>
    simp only [Stmt.resolve, Stmt.annotate, Stmt.visits, Stmt.declares]
    rw [Place.after_cons P name.text (members.map (·.name.text))]
    refine .pass rfl ((Resolves.declare hd name .form).bind (v := [_]) ?_)
    refine (Resolves.define hd name).first ?_
    exact (Definition.resolves_members (P := P.after [name.text]) hd members).last (.pure _)

theorem Stmt.resolvesList {P : Place} (hd : P.defining = none) (ss : List Stmt) :
    Resolves (Stmt.resolveList P.around ss) P (Stmt.annotateList Place.distance? P ss)
      (Stmt.visitsOfList P ss) (P.after (Stmt.declaresList ss)) := by
  match ss with
  | [] =>
    simp only [Stmt.declaresList, Place.after_nil]
    exact .pure _
  | s :: ss =>
    simp only [Stmt.resolveList, Stmt.annotateList, Stmt.visitsOfList, Stmt.declaresList,
      Place.after_append]
    refine Resolves.bind (Stmt.resolves (P := P.child 0) hd s) ?_
    exact Resolves.last (Stmt.resolvesList (P := (P.after s.declares).child 1) hd ss) (.pure _)

theorem Operation.resolves {P : Place} (hd : P.defining = none) (o : Operation) :
    Resolves (o.resolve P.around) P (o.annotate Place.distance? P) (o.visits P) P := by
  match o with
  | ⟨token, name, params, body⟩ =>
    simp only [Operation.resolve, Operation.annotate, Operation.visits]
    have hp := Token.resolves_declareParams
      (P := P.operation ⟨token, name, params, body⟩) hd params
    have hb := Stmt.resolvesList
      (P := (P.operation ⟨token, name, params, body⟩).after (params.map (·.text))) hd body
    exact (Resolves.inScope _ hd rfl (hp.bind hb)).last (.pure _)

theorem Operation.resolvesList {P : Place} (hd : P.defining = none) (os : List Operation) :
    Resolves (Operation.resolveList P.around os) P (Operation.annotateList Place.distance? P os)
      (Operation.visitsOfList P os) P := by
  match os with
  | [] => exact .pure _
  | o :: os =>
    simp only [Operation.resolveList, Operation.annotateList, Operation.visitsOfList,
      List.cons_append]
    refine .pass rfl (Resolves.bind (Operation.resolves (P := P.child 0) hd o) ?_)
    exact Resolves.last (Operation.resolvesList (P := P.child 1) hd os) (.pure _)

theorem Arm.resolves {P : Place} (hd : P.defining = none) (a : Arm) :
    Resolves (a.resolve P.around) P (a.annotate Place.distance? P) (a.visits P)
      (P.after a.declares) := by
  match a with
  | ⟨_, condition, branch⟩ =>
    simp only [Arm.resolve, Arm.annotate, Arm.visits, Arm.declares]
    exact (condition.resolves P).bind ((Stmt.resolves hd branch).last (.pure _))

theorem Arm.resolvesList {P : Place} (hd : P.defining = none) (as : List Arm) :
    Resolves (Arm.resolveList P.around as) P (Arm.annotateList Place.distance? P as)
      (Arm.visitsOfList P as) (P.after (Arm.declaresList as)) := by
  match as with
  | [] =>
    simp only [Arm.declaresList, Place.after_nil]
    exact .pure _
  | a :: rest =>
    simp only [Arm.resolveList, Arm.annotateList, Arm.visitsOfList, Arm.declaresList,
      List.cons_append, Place.after_append]
    refine .pass rfl (Resolves.bind (Arm.resolves (P := P.child 0) hd a) ?_)
    exact Resolves.last (Arm.resolvesList (P := (P.after a.declares).child 1) hd rest) (.pure _)

end

theorem Program.resolve_eq (program : Nat) (p : Program) :
    p.resolve = ⟨p.annotated program, Visit.diagnostics (p.visits program)⟩ := by
  obtain ⟨ss, -, hrun⟩ := Stmt.resolvesList (P := .top program) rfl p ⟨[], []⟩
    (Symbols.fits_top program)
  rw [Program.resolve]
  rw [show (Stmt.resolveList ⟨false, false⟩ p).run ⟨[], []⟩ = _ from hrun]
  rfl

/-- The diagnostics are the faults of the visits, in their order, and every node is visited. The
numbers of hops do not depend on them: they are the lexical distances, faults or not. -/
theorem Program.diagnostics_eq_faults (program : Nat) (p : Program) :
    p.resolve.diagnostics =
      (p.visits program).filterMap (fun v => v.fault?.map fun fault => .of fault.1 fault.2) ∧
    (Visit.nodes (p.visits program)).Perm p.nodes ∧
    p.resolve.program = p.annotated program := by
  have hresolve := p.resolve_eq program
  refine ⟨?_, p.nodes_visits_perm program, ?_⟩
  · rw [hresolve]
    rfl
  · rw [hresolve]

end Treescript
