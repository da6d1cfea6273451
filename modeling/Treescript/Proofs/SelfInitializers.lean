import Treescript.Proofs.DecodedPrograms
import Treescript.Proofs.ResolverWalk
import Treescript.Proofs.WholeVisits

/-!
# Names inside their own initial values

Between the declaration of a local name and its definition lies the initial value. Resolution finds
all variables there that read the name, and with them the counts of a decoded program, whose target
is such a variable. It does not find assignments to the name.
-/

namespace Treescript

/-- The visits of every statement stand together. -/
def Visit.Together (vs : List Visit) : Prop :=
  ∀ s P, ⟨.node (.stmt s), P⟩ ∈ vs → ∃ before after, vs = before ++ s.visits P ++ after

namespace Visit.Together

variable {P : Place} {vs ws : List Visit}

theorem of_forall (h : ∀ v ∈ vs, ∀ s, v.item ≠ .node (.stmt s)) : Together vs :=
  fun s _ hs => absurd rfl (h _ hs s)

theorem nil : Together [] := of_forall (List.forall_mem_nil _)

theorem append (h : Together vs) (h' : Together ws) : Together (vs ++ ws) := by
  intro s P hs
  obtain hs | hs := List.mem_append.1 hs
  · obtain ⟨before, after, rfl⟩ := h s P hs
    exact ⟨before, after ++ ws, by simp⟩
  · obtain ⟨before, after, rfl⟩ := h' s P hs
    exact ⟨vs ++ before, after, by simp⟩

theorem other {i : Item} (h : Together vs) (hi : ∀ s, i ≠ .node (.stmt s)) :
    Together (⟨i, P⟩ :: vs) := by
  have hhead : Together [⟨i, P⟩] := of_forall (List.forall_mem_singleton.2 hi)
  exact hhead.append h

theorem declaration (h : Together vs) (P : Place) (name : Token) :
    Together (⟨.declaration name, P⟩ :: vs) :=
  h.other (by simp)

theorem stmt {s : Stmt} (h : Together vs) (hs : s.visits P = ⟨.node (.stmt s), P⟩ :: vs) :
    Together (s.visits P) := by
  intro t Q ht
  have hmem := ht
  rw [hs, List.mem_cons] at hmem
  obtain heq | hmem := hmem
  · obtain ⟨hitem, rfl⟩ := Visit.mk.inj heq
    obtain rfl : t = s := Node.stmt.inj (Item.node.inj hitem)
    exact ⟨[], [], by simp⟩
  · obtain ⟨before, after, heq⟩ := h t Q hmem
    exact ⟨⟨.node (.stmt s), P⟩ :: before, after, by rw [hs, heq]; rfl⟩

theorem optional (P : Place) (e? : Option Expr) : Together (Expr.visitsOptional P e?) := by
  refine of_forall fun v hv s => ?_
  obtain ⟨part, -, rfl⟩ := Expr.mem_visitsOptional.1 hv
  simp

theorem expr (P : Place) (e : Expr) : Together (e.visits P) := optional P (some e)

theorem params (P : Place) (params : List Token) : Together (Token.visitsOfParams P params) := by
  induction params generalizing P with
  | nil => exact .nil
  | cons param params ih => exact (ih (P.after [param.text])).declaration P param

theorem members (P : Place) (ds : List Definition) :
    Together (Definition.visitsOfMembers P ds) := by
  induction ds generalizing P with
  | nil => exact .nil
  | cons d rest ih =>
    have hrest := (ih (P.after [d.name.text])).declaration P d.name
    exact ((optional P d.initial).append hrest).other (by simp)

end Visit.Together

open Visit (Together)

mutual

theorem Stmt.together_visits (P : Place) (s : Stmt) : Together (s.visits P) := by
  match s with
  | .hole => exact Together.nil.stmt rfl
  | .expression _ value | .print _ value => exact (Together.expr P value).stmt rfl
  | .define d =>
    exact ((Together.optional _ d.initial).declaration P d.name).stmt rfl
  | .block _ body => exact (Stmt.together_visitsOfList _ body).stmt rfl
  | .operation o =>
    have ho := Operation.together_visits (P.after [o.name.text]) o
    exact (ho.declaration P o.name).stmt rfl
  | .conditional _ condition branch arms none =>
    have hbranch := Stmt.together_visits (P.child 0) branch
    have harms := Arm.together_visitsOfList ((P.after branch.declares).child 1) arms
    exact (((Together.expr P condition).append hbranch).append harms).stmt rfl
  | .conditional _ condition branch arms (some otherwise) =>
    have hbranch := Stmt.together_visits (P.child 0) branch
    have harms := Arm.together_visitsOfList ((P.after branch.declares).child 1) arms
    have hlast := Stmt.together_visits
      ((P.after (branch.declares ++ Arm.declaresList arms)).child 2) otherwise
    exact ((((Together.expr P condition).append hbranch).append harms).append hlast).stmt rfl
  | .arm a => exact (Arm.together_visits P a).stmt rfl
  | .loop _ condition body =>
    have hbody := Stmt.together_visits (P.child 0) body
    exact ((Together.expr P condition).append hbody).stmt rfl
  | .return _ value => exact (Together.optional P value).stmt rfl
  | .object _ name methods =>
    have hmethods := Operation.together_visitsOfList (P.after [name.text]).object methods
    exact (hmethods.declaration P name).stmt rfl
  | .enum _ name _ => exact (Together.nil.declaration P name).stmt rfl
  | .form _ name members =>
    have hmembers := Together.members (P.after [name.text]) members
    exact (hmembers.declaration P name).stmt rfl

theorem Stmt.together_visitsOfList (P : Place) (ss : List Stmt) :
    Together (Stmt.visitsOfList P ss) := by
  match ss with
  | [] => exact .nil
  | s :: ss =>
    exact (Stmt.together_visits (P.child 0) s).append
      (Stmt.together_visitsOfList ((P.after s.declares).child 1) ss)

theorem Operation.together_visits (P : Place) (o : Operation) : Together (o.visits P) := by
  match o with
  | ⟨_, _, params, body⟩ =>
    exact (Together.params _ params).append (Stmt.together_visitsOfList _ body)

theorem Operation.together_visitsOfList (P : Place) (os : List Operation) :
    Together (Operation.visitsOfList P os) := by
  match os with
  | [] => exact .nil
  | o :: os =>
    have ho := Operation.together_visits (P.child 0) o
    exact (ho.append (Operation.together_visitsOfList (P.child 1) os)).other (by simp)

theorem Arm.together_visits (P : Place) (a : Arm) : Together (a.visits P) := by
  match a with
  | ⟨_, condition, branch⟩ =>
    exact (Together.expr P condition).append (Stmt.together_visits P branch)

theorem Arm.together_visitsOfList (P : Place) (as : List Arm) :
    Together (Arm.visitsOfList P as) := by
  match as with
  | [] => exact .nil
  | a :: rest =>
    have ha := Arm.together_visits (P.child 0) a
    -- in a list an arm is visited as a statement of its own
    exact (ha.stmt (s := .arm a) (P := P.child 0) rfl).append
      (Arm.together_visitsOfList ((P.after a.declares).child 1) rest)

end

theorem Program.together_visits (program : Nat) (p : Program) : Together (p.visits program) :=
  Stmt.together_visitsOfList (.top program) p

/-- The diagnostics that the initial value of a definition at a place gives rise to. -/
def Definition.initialDiagnostics (P : Place) (d : Definition) : List Diagnostic :=
  Visit.diagnostics (Expr.visitsOptional (P.initializer d.name.text) d.initial)

theorem Program.initialDiagnostics_together {program : Nat} {p : Program} {d : Definition}
    {P : Place} (hd : ⟨.node (.stmt (.define d)), P⟩ ∈ p.visits program) :
    ∃ before after, p.resolve.diagnostics = before ++ d.initialDiagnostics P ++ after := by
  obtain ⟨before, after, hvisits⟩ := p.together_visits program (.define d) P hd
  refine ⟨Visit.diagnostics (before ++ [⟨.node (.stmt (.define d)), P⟩, ⟨.declaration d.name, P⟩]),
    Visit.diagnostics after, ?_⟩
  rw [p.resolve_eq program, hvisits, Definition.initialDiagnostics, ← Visit.diagnostics_append,
    ← Visit.diagnostics_append]
  simp [Stmt.visits]

/-- An expression that gives the value of a name or counts it up or down. -/
def Expr.Reads (x : String) : Expr → Prop
  | .variable name _ | .count _ _ name _ => name.text = x
  | _ => False

theorem Visit.fault?_selfInitializer_iff {v : Visit} {token : Token} :
    v.fault? = some (.selfInitializer, token) ↔
      (∃ hops, v.item = .node (.expr (.variable token hops))) ∧ v.place.isLocal ∧
        v.place.defining = some token.text := by
  obtain ⟨item, P⟩ := v
  constructor
  · intro h
    rw [Visit.fault?] at h
    split at h
    case h_2 name hops hitem =>
      split at h
      · next hcond =>
        obtain ⟨⟩ := h
        exact ⟨⟨hops, hitem⟩, hcond⟩
      · cases h
    case h_6 => cases h
    all_goals split at h <;> cases h
  · rintro ⟨⟨hops, rfl⟩, hcond⟩
    exact if_pos hcond

theorem Diagnostic.of_mem_diagnostics {vs : List Visit} {rule : Rule} {token : Token} :
    Diagnostic.of rule token ∈ Visit.diagnostics vs ↔ ∃ v ∈ vs, v.fault? = some (rule, token) := by
  simp [Visit.diagnostics, Diagnostic.of]

section Initial

variable {program : Nat} {p : Program} {d : Definition} {P : Place} {e : Expr}

theorem Definition.selfInitializer_mem_iff (hlocal : P.isLocal) (he : d.initial = some e)
    (token : Token) :
    .of .selfInitializer token ∈ d.initialDiagnostics P ↔
      token.text = d.name.text ∧ ∃ hops, .variable token hops ∈ e.parts := by
  have hplace : (P.initializer d.name.text).isLocal := by
    obtain ⟨_, _, layers, _, _, _⟩ := P
    cases layers with
    | nil => cases hlocal
    | cons layer outer => rfl
  rw [Definition.initialDiagnostics, he, Diagnostic.of_mem_diagnostics]
  simp only [Visit.fault?_selfInitializer_iff]
  constructor
  · rintro ⟨v, hv, ⟨hops, hitem⟩, -, hdefining⟩
    obtain ⟨part, hpart, rfl⟩ := List.mem_map.1 hv
    obtain rfl : part = .variable token hops := Node.expr.inj (Item.node.inj hitem)
    exact ⟨(Option.some.inj hdefining).symm, hops, hpart⟩
  · rintro ⟨hname, hops, hpart⟩
    refine ⟨_, List.mem_map.2 ⟨_, hpart, rfl⟩, ⟨hops, rfl⟩, hplace, ?_⟩
    exact congrArg some hname.symm

/-- Decoding gives a count the variable that it writes as a part of its own. -/
theorem Program.variable_mem_of_count (hcounts : ∀ n ∈ p.nodes, n.Counted)
    (hd : ⟨.node (.stmt (.define d)), P⟩ ∈ p.visits program) (he : d.initial = some e)
    {operator target : _} {name : Token} {hops : Option Nat}
    (hcount : .count operator target name hops ∈ e.parts) :
    ∃ hops', .variable name hops' ∈ e.parts := by
  have hvisit : ⟨.node (.expr (.count operator target name hops)), P.initializer d.name.text⟩ ∈
      p.visits program := by
    refine (p.whole_visits program).stmts (.define d) P hd (.tail _ (.tail _ ?_))
    rw [he]
    exact List.mem_map.2 ⟨_, hcount, rfl⟩
  have hnode : .expr (.count operator target name hops) ∈ p.nodes :=
    (p.nodes_visits_perm program).mem_iff.1 (List.mem_filterMap.2 ⟨_, hvisit, rfl⟩)
  obtain ⟨hops', rfl⟩ := hcounts _ hnode
  exact ⟨hops', e.parts_trans _ hcount (List.mem_cons_of_mem _ List.mem_cons_self)⟩

/-- The diagnostics of the initial value of a local definition stand together, and they hold a
self-initializer for every variable in it that has the name of the definition, at any depth, and for
nothing else. In a program read from a document this finds all that read the name, counts included.
An assignment to the name is not found. -/
theorem Program.selfInitializer_iff_variable (program : Nat) (p : Program) (d : Definition)
    (P : Place) (e : Expr) (hd : ⟨.node (.stmt (.define d)), P⟩ ∈ p.visits program)
    (hlocal : P.isLocal) (he : d.initial = some e) :
    (∃ before after, p.resolve.diagnostics = before ++ d.initialDiagnostics P ++ after) ∧
    (∀ token, .of .selfInitializer token ∈ d.initialDiagnostics P ↔
      token.text = d.name.text ∧ ∃ hops, .variable token hops ∈ e.parts) ∧
    ∀ ds, Document.program ds = .ok p →
      ((∃ token, .of .selfInitializer token ∈ d.initialDiagnostics P) ↔
        ∃ part ∈ e.parts, part.Reads d.name.text) := by
  refine ⟨initialDiagnostics_together hd, d.selfInitializer_mem_iff hlocal he, ?_⟩
  intro ds hds
  simp only [d.selfInitializer_mem_iff hlocal he]
  constructor
  · rintro ⟨token, hname, hops, hpart⟩
    exact ⟨_, hpart, hname⟩
  · rintro ⟨part, hpart, hreads⟩
    cases part with
    | «variable» name hops => exact ⟨name, hreads, hops, hpart⟩
    | count operator target name hops =>
      have hvar := variable_mem_of_count (Document.program_counts hds) hd he hpart
      exact ⟨name, hreads, hvar⟩
    | _ => exact hreads.elim

end Initial

/-- A block that defines `x` by an assignment to `x`. -/
def assignedInitial : List Document :=
  [.mapping [("type", .text "Block"), ("statements", .list [.mapping [("type", .text "Def"),
    ("name", .text "x"), ("initial", .mapping [("type", .text "Assign"), ("name", .text "x"),
      ("value", .mapping [("type", .text "Literal"), ("value", .int 1)])])]])]]

def assignedDefinition : Definition :=
  let x : Token := ⟨.identifier, "x", 1, .null⟩
  ⟨⟨.keyword .define, "def", 1, .null⟩, x,
    some (.assign x (.literal ⟨.int, "1", 1, .int 1⟩ (.int 1)) none)⟩

theorem assignedInitial_not_found :
    ∃ (p : Program) (P : Place) (e : Expr), Document.program assignedInitial = .ok p ∧
      ⟨.node (.stmt (.define assignedDefinition)), P⟩ ∈ p.visits 0 ∧ P.isLocal ∧
      assignedDefinition.initial = some e ∧
      (∃ name value hops, .assign name value hops ∈ e.parts ∧
        name.text = assignedDefinition.name.text) ∧
      p.resolve.diagnostics = [] ∧ ¬ ∃ part ∈ e.parts, part.Reads assignedDefinition.name.text := by
  let p : Program := [.block ⟨.mark .bodyStart, "|", 1, .null⟩ [.define assignedDefinition]]
  have hp : Document.program assignedInitial = .ok p := by with_unfolding_all rfl
  have hvisit : (p.visits 0)[1]? = some ⟨.node (.stmt (.define assignedDefinition)), _⟩ := rfl
  have hd := List.mem_of_getElem? hvisit
  obtain ⟨⟨before, after, hall⟩, -, hreads⟩ :=
    p.selfInitializer_iff_variable 0 assignedDefinition _ _ hd rfl rfl
  have hnone : p.resolve.diagnostics = [] := rfl
  refine ⟨p, _, _, hp, hd, rfl, rfl, ⟨_, _, _, .head _, rfl⟩, hnone, fun h => ?_⟩
  obtain ⟨token, htoken⟩ := (hreads _ hp).2 h
  have hsome := hall ▸ List.mem_append_left after (List.mem_append_right before htoken)
  exact absurd (hnone ▸ hsome) List.not_mem_nil

end Treescript
