import Treescript.Proofs.Places

/-!
# Visits come in wholes

Where a node is visited, all that it is made of is visited with it: the parts of an expression at
the same place, a statement as it would be on its own. A place inside an initial value belongs to a
definition that is visited as well.
-/

namespace Treescript

mutual

theorem Expr.parts_trans (e : Expr) : ∀ part ∈ e.parts, part.parts ⊆ e.parts := by
  match e with
  | .hole | .literal .. | .variable .. | .self .. | .parent .. | .global .. =>
    exact List.forall_mem_singleton.2 (List.Subset.refl _)
  | .assign _ inner _ | .unary _ inner | .count _ inner _ _ | .group _ inner | .get inner _ =>
    refine List.forall_mem_cons.2 ⟨List.Subset.refl _, fun part hpart => ?_⟩
    exact List.Subset.trans (Expr.parts_trans inner part hpart) (List.subset_cons_self _ _)
  | .binary first _ second | .logical first _ second | .set second _ first =>
    refine List.forall_mem_cons.2 ⟨List.Subset.refl _, List.forall_mem_append.2 ⟨?_, ?_⟩⟩
    · exact fun part hpart q hq => List.mem_cons_of_mem _
        (List.mem_append_left _ (Expr.parts_trans first part hpart hq))
    · exact fun part hpart q hq => List.mem_cons_of_mem _
        (List.mem_append_right _ (Expr.parts_trans second part hpart hq))
  | .call callee _ args =>
    refine List.forall_mem_cons.2 ⟨List.Subset.refl _, List.forall_mem_append.2 ⟨?_, ?_⟩⟩
    · exact fun part hpart q hq => List.mem_cons_of_mem _
        (List.mem_append_left _ (Expr.parts_trans callee part hpart hq))
    · exact fun part hpart q hq => List.mem_cons_of_mem _
        (List.mem_append_right _ (Expr.partsOfList_trans args part hpart hq))

theorem Expr.partsOfList_trans (es : List Expr) :
    ∀ part ∈ Expr.partsOfList es, part.parts ⊆ Expr.partsOfList es := by
  match es with
  | [] => exact List.forall_mem_nil _
  | e :: es =>
    refine List.forall_mem_append.2 ⟨fun part hpart q hq => ?_, fun part hpart q hq => ?_⟩
    · exact List.mem_append_left _ (Expr.parts_trans e part hpart hq)
    · exact List.mem_append_right _ (Expr.partsOfList_trans es part hpart hq)

end

def Expr.partsOptional (e? : Option Expr) : List Expr := e?.toList.flatMap Expr.parts

theorem Expr.partsOptional_trans (e? : Option Expr) :
    ∀ part ∈ Expr.partsOptional e?, part.parts ⊆ Expr.partsOptional e? := by
  cases e? with
  | none => exact List.forall_mem_nil _
  | some e => simpa [Expr.partsOptional] using e.parts_trans

theorem Expr.mem_visitsOptional {P : Place} {e? : Option Expr} {v : Visit} :
    v ∈ Expr.visitsOptional P e? ↔ ∃ part ∈ Expr.partsOptional e?, v = ⟨.node (.expr part), P⟩ := by
  cases e? <;> simp [Expr.visitsOptional, Expr.visits, Expr.partsOptional, eq_comm]

structure Visit.Whole (vs : List Visit) : Prop where
  parts : ∀ e P, ⟨.node (.expr e), P⟩ ∈ vs → ∀ part ∈ e.parts, ⟨.node (.expr part), P⟩ ∈ vs
  stmts : ∀ s P, ⟨.node (.stmt s), P⟩ ∈ vs → s.visits P ⊆ vs
  initials : ∀ v ∈ vs, ∀ x, v.place.defining = some x → ∃ d P e,
    ⟨.node (.stmt (.define d)), P⟩ ∈ vs ∧ d.name.text = x ∧
      e ∈ Expr.partsOptional d.initial ∧ v.item = .node (.expr e)

namespace Visit.Whole

variable {P : Place} {vs ws : List Visit}

theorem nil : Whole [] :=
  ⟨fun _ _ h => absurd h List.not_mem_nil, fun _ _ h => absurd h List.not_mem_nil,
    List.forall_mem_nil _⟩

theorem append (h : Whole vs) (h' : Whole ws) : Whole (vs ++ ws) := by
  refine ⟨fun e P he part hpart => ?_, fun s P hs => ?_, ?_⟩
  · rcases List.mem_append.1 he with he | he
    · exact List.mem_append_left _ (h.parts e P he part hpart)
    · exact List.mem_append_right _ (h'.parts e P he part hpart)
  · rcases List.mem_append.1 hs with hs | hs
    · exact fun v hv => List.mem_append_left _ (h.stmts s P hs hv)
    · exact fun v hv => List.mem_append_right _ (h'.stmts s P hs hv)
  · refine List.forall_mem_append.2 ⟨fun v hv x hx => ?_, fun v hv x hx => ?_⟩
    · obtain ⟨d, P, e, hd, hrest⟩ := h.initials v hv x hx
      exact ⟨d, P, e, List.mem_append_left _ hd, hrest⟩
    · obtain ⟨d, P, e, hd, hrest⟩ := h'.initials v hv x hx
      exact ⟨d, P, e, List.mem_append_right _ hd, hrest⟩

/-- An item that is not an expression. If it is a statement, its visits have to follow. -/
theorem cons {i : Item} (h : Whole vs) (hd : P.defining = none)
    (he : ∀ e, i ≠ .node (.expr e))
    (hs : ∀ s, i = .node (.stmt s) → s.visits P ⊆ ⟨i, P⟩ :: vs) :
    Whole (⟨i, P⟩ :: vs) := by
  refine ⟨fun e Q hmem part hpart => ?_, fun s Q hmem => ?_, ?_⟩
  · rcases List.mem_cons.1 hmem with heq | hmem
    · exact absurd (Visit.mk.inj heq).1.symm (he e)
    · exact List.mem_cons_of_mem _ (h.parts e Q hmem part hpart)
  · rcases List.mem_cons.1 hmem with heq | hmem
    · obtain ⟨hitem, rfl⟩ := Visit.mk.inj heq
      exact hs s hitem.symm
    · exact fun v hv => List.mem_cons_of_mem _ (h.stmts s Q hmem hv)
  · refine List.forall_mem_cons.2 ⟨fun x hx => absurd (hd.symm.trans hx) nofun, ?_⟩
    intro v hv x hx
    obtain ⟨d, Q, e, hmem, hrest⟩ := h.initials v hv x hx
    exact ⟨d, Q, e, List.mem_cons_of_mem _ hmem, hrest⟩

theorem stmt {s : Stmt} (h : Whole vs) (hd : P.defining = none)
    (hs : s.visits P = ⟨.node (.stmt s), P⟩ :: vs) : Whole (s.visits P) := by
  rw [hs]
  refine h.cons hd nofun fun t ht => ?_
  obtain rfl : s = t := Node.stmt.inj (Item.node.inj ht)
  rw [hs]
  exact List.Subset.refl _

theorem other {i : Item} (h : Whole vs) (hd : P.defining = none)
    (hn : ∀ n, i ≠ .node n) : Whole (⟨i, P⟩ :: vs) :=
  h.cons hd (fun e => hn (.expr e)) fun s hs => absurd hs (hn (.stmt s))

theorem optional (hd : P.defining = none) (e? : Option Expr) :
    Whole (Expr.visitsOptional P e?) := by
  refine ⟨fun e Q hmem part hpart => ?_, fun s Q hmem => ?_, fun v hv x hx => ?_⟩
  · obtain ⟨q, hq, heq⟩ := Expr.mem_visitsOptional.1 hmem
    obtain ⟨⟨⟩, rfl⟩ := Visit.mk.inj heq
    exact Expr.mem_visitsOptional.2 ⟨part, Expr.partsOptional_trans e? e hq hpart, rfl⟩
  · obtain ⟨q, -, heq⟩ := Expr.mem_visitsOptional.1 hmem
    exact absurd (Visit.mk.inj heq).1 nofun
  · obtain ⟨q, -, rfl⟩ := Expr.mem_visitsOptional.1 hv
    exact absurd (hd.symm.trans hx) nofun

theorem expr (hd : P.defining = none) (e : Expr) : Whole (e.visits P) := optional hd (some e)

/-- All of the initial value of a definition is inside that definition. -/
theorem define (hd : P.defining = none) (d : Definition) :
    Whole ((Stmt.define d).visits P) := by
  refine ⟨fun e Q hmem part hpart => ?_, fun s Q hmem => ?_, ?_⟩
  · simp only [Stmt.visits, List.mem_cons, Visit.mk.injEq, reduceCtorEq, Item.node.injEq,
      false_and, false_or] at hmem ⊢
    obtain ⟨q, hq, heq⟩ := Expr.mem_visitsOptional.1 hmem
    obtain ⟨⟨⟩, rfl⟩ := Visit.mk.inj heq
    exact Expr.mem_visitsOptional.2 ⟨part, Expr.partsOptional_trans d.initial e hq hpart, rfl⟩
  · simp only [Stmt.visits, List.mem_cons, Visit.mk.injEq, reduceCtorEq, Item.node.injEq,
      Node.stmt.injEq, false_and, false_or] at hmem
    rcases hmem with ⟨rfl, rfl⟩ | hmem
    · exact List.Subset.refl _
    · obtain ⟨q, -, heq⟩ := Expr.mem_visitsOptional.1 hmem
      cases (Visit.mk.inj heq).1
  · have hnone : ∀ x, P.defining ≠ some x := by simp [hd]
    refine List.forall_mem_cons.2 ⟨fun x hx => absurd hx (hnone x), ?_⟩
    refine List.forall_mem_cons.2 ⟨fun x hx => absurd hx (hnone x), ?_⟩
    intro v hv x hx
    obtain ⟨part, hpart, rfl⟩ := Expr.mem_visitsOptional.1 hv
    exact ⟨d, P, part, List.mem_cons_self, Option.some.inj hx, hpart, rfl⟩

theorem params (hd : P.defining = none) (params : List Token) :
    Whole (Token.visitsOfParams P params) := by
  induction params generalizing P with
  | nil => exact nil
  | cons param params ih => exact (ih (P := P.after [param.text]) hd).other hd nofun

theorem members (hd : P.defining = none) (ds : List Definition) :
    Whole (Definition.visitsOfMembers P ds) := by
  induction ds generalizing P with
  | nil => exact nil
  | cons d rest ih =>
    have hrest := (ih (P := P.after [d.name.text]) hd).other (i := .declaration d.name) hd nofun
    exact ((optional hd d.initial).append hrest).other hd nofun

end Visit.Whole

open Visit (Whole)

mutual

theorem Stmt.whole_visits {P : Place} (hd : P.defining = none) (s : Stmt) :
    Whole (s.visits P) := by
  match s with
  | .hole => exact Whole.nil.stmt hd rfl
  | .expression _ value | .print _ value => exact (Whole.expr hd value).stmt hd rfl
  | .define d => exact .define hd d
  | .block _ body => exact (Stmt.whole_visitsOfList (P := P.enter _) hd body).stmt hd rfl
  | .operation o =>
    have ho := Operation.whole_visits (P := P.after [o.name.text]) hd o
    exact (ho.other (P := P) (i := .declaration o.name) hd nofun).stmt hd rfl
  | .conditional _ condition branch arms none =>
    have hbranch := Stmt.whole_visits (P := P.child 0) hd branch
    have harms := Arm.whole_visitsOfList (P := (P.after branch.declares).child 1) hd arms
    exact (((Whole.expr hd condition).append hbranch).append harms).stmt hd rfl
  | .conditional _ condition branch arms (some otherwise) =>
    have hbranch := Stmt.whole_visits (P := P.child 0) hd branch
    have harms := Arm.whole_visitsOfList (P := (P.after branch.declares).child 1) hd arms
    have hlast := Stmt.whole_visits
      (P := (P.after (branch.declares ++ Arm.declaresList arms)).child 2) hd otherwise
    exact ((((Whole.expr hd condition).append hbranch).append harms).append hlast).stmt hd rfl
  | .arm a => exact (Arm.whole_visits hd a).stmt hd rfl
  | .loop _ condition body =>
    have hbody := Stmt.whole_visits (P := P.child 0) hd body
    exact ((Whole.expr hd condition).append hbody).stmt hd rfl
  | .return _ value => exact (Whole.optional hd value).stmt hd rfl
  | .object _ name methods =>
    have hmethods := Operation.whole_visitsOfList (P := (P.after [name.text]).object) hd methods
    exact (hmethods.other (P := P) (i := .declaration name) hd nofun).stmt hd rfl
  | .enum _ name _ =>
    exact (Whole.nil.other (P := P) (i := .declaration name) hd nofun).stmt hd rfl
  | .form _ name members =>
    have hmembers := Whole.members (P := P.after [name.text]) hd members
    exact (hmembers.other (P := P) (i := .declaration name) hd nofun).stmt hd rfl

theorem Stmt.whole_visitsOfList {P : Place} (hd : P.defining = none) (ss : List Stmt) :
    Whole (Stmt.visitsOfList P ss) := by
  match ss with
  | [] => exact .nil
  | s :: ss =>
    exact (Stmt.whole_visits (P := P.child 0) hd s).append
      (Stmt.whole_visitsOfList (P := (P.after s.declares).child 1) hd ss)

theorem Operation.whole_visits {P : Place} (hd : P.defining = none) (o : Operation) :
    Whole (o.visits P) := by
  match o with
  | ⟨token, name, params, body⟩ =>
    exact (Whole.params (P := P.operation _) hd params).append (Stmt.whole_visitsOfList
      (P := (P.operation ⟨token, name, params, body⟩).after (params.map (·.text))) hd body)

theorem Operation.whole_visitsOfList {P : Place} (hd : P.defining = none) (os : List Operation) :
    Whole (Operation.visitsOfList P os) := by
  match os with
  | [] => exact .nil
  | o :: os =>
    have ho := Operation.whole_visits (P := P.child 0) hd o
    exact (ho.append (Operation.whole_visitsOfList (P := P.child 1) hd os)).other
      (P := P.child 0) hd nofun

theorem Arm.whole_visits {P : Place} (hd : P.defining = none) (a : Arm) : Whole (a.visits P) := by
  match a with
  | ⟨_, condition, branch⟩ => exact (Whole.expr hd condition).append (Stmt.whole_visits hd branch)

theorem Arm.whole_visitsOfList {P : Place} (hd : P.defining = none) (as : List Arm) :
    Whole (Arm.visitsOfList P as) := by
  match as with
  | [] => exact .nil
  | a :: rest =>
    have ha := Arm.whole_visits (P := P.child 0) hd a
    exact (ha.stmt (s := .arm a) (P := P.child 0) hd rfl).append
      (Arm.whole_visitsOfList (P := (P.after a.declares).child 1) hd rest)

end

theorem Program.whole_visits (program : Nat) (p : Program) : Whole (p.visits program) :=
  Stmt.whole_visitsOfList (P := .top program) rfl p

end Treescript
