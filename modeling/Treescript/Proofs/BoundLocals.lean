import Treescript.Proofs.DecodedPrograms
import Treescript.Proofs.ScopeAgreement
import Treescript.Proofs.WholeVisits

/-!
# Locals are bound when they are used

When a program has no faults, declares names only where statements are listed, and assigns to no
name in the initial value of its own definition, a reference with a number of hops finds its
variable bound, in every run and whatever the rest of the session does. There is one exception,
which resolution lets pass: `self` in the initial value of a definition of `self`.
-/

namespace Treescript

def Stmt.isDeclaration : Stmt → Bool
  | .define _ | .operation _ | .object .. | .enum .. | .form .. => true
  | _ => false

/-- The statements that a branching statement has for branches. -/
def Stmt.branches : Stmt → List Stmt
  | .conditional _ _ branch arms otherwise =>
    branch :: arms.map (·.branch) ++ otherwise.toList
  | .arm a => [a.branch]
  | .loop _ _ body => [body]
  | _ => []

/-- Declarations are elements of lists of statements, never branches. -/
def Visit.isListed (v : Visit) : Bool :=
  match v.item with
  | .node (.stmt s) => s.branches.all fun branch => !branch.isDeclaration
  | _ => true

/-- A definition does not assign to its own name in its initial value. -/
def Visit.isForward (v : Visit) : Bool :=
  match v.item with
  | .node (.stmt (.define d)) => (Expr.partsOptional d.initial).all fun
    | .assign name _ _ => name.text != d.name.text
    | _ => true
  | _ => true

theorem Visit.forall_branches {vs : List Visit} (h : ∀ v ∈ vs, v.isListed) {s : Stmt} {P : Place}
    (hs : ⟨.node (.stmt s), P⟩ ∈ vs) : ∀ branch ∈ s.branches, branch.isDeclaration = false := by
  simpa [Visit.isListed] using h _ hs

mutual

theorem Stmt.declares_eq_nil {P : Place} (s : Stmt) (hl : ∀ v ∈ s.visits P, v.isListed)
    (hs : s.isDeclaration = false) : s.declares = [] := by
  match s with
  | .hole | .expression .. | .print .. | .block .. | .return .. => rfl
  | .define _ | .operation _ | .object .. | .enum .. | .form .. => exact absurd hs nofun
  | .conditional _ condition branch arms none =>
    have hbranches := Visit.forall_branches (P := P) hl List.mem_cons_self
    simp only [Stmt.branches, List.cons_append, List.forall_mem_cons, List.forall_mem_append,
      List.forall_mem_map] at hbranches
    have hbranch := Stmt.declares_eq_nil branch (P := P.child 0)
      (fun v hv => hl v <| by simp [Stmt.visits, hv]) hbranches.1
    have harms := Arm.declaresList_eq_nil arms (P := (P.after branch.declares).child 1)
      (fun v hv => hl v <| by simp [Stmt.visits, hv]) hbranches.2.1
    rw [Stmt.declares, hbranch, harms]
    rfl
  | .conditional _ condition branch arms (some otherwise) =>
    have hbranches := Visit.forall_branches (P := P) hl List.mem_cons_self
    simp only [Stmt.branches, List.cons_append, List.forall_mem_cons, List.forall_mem_append,
      List.forall_mem_map, Option.toList_some] at hbranches
    have hbranch := Stmt.declares_eq_nil branch (P := P.child 0)
      (fun v hv => hl v <| by simp [Stmt.visits, hv]) hbranches.1
    have harms := Arm.declaresList_eq_nil arms (P := (P.after branch.declares).child 1)
      (fun v hv => hl v <| by simp [Stmt.visits, hv]) hbranches.2.1
    have hlast := Stmt.declares_eq_nil otherwise
      (P := (P.after (branch.declares ++ Arm.declaresList arms)).child 2)
      (fun v hv => hl v <| by simp [Stmt.visits, hv]) hbranches.2.2.1
    rw [Stmt.declares, hbranch, harms, hlast]
    rfl
  | .arm ⟨_, _, branch⟩ =>
    have hbranch := Visit.forall_branches (P := P) hl List.mem_cons_self branch
      (List.mem_singleton_self _)
    refine Stmt.declares_eq_nil branch (P := P) (fun v hv => hl v ?_) hbranch
    exact List.mem_cons_of_mem _ (List.mem_append_right _ hv)
  | .loop _ condition body =>
    have hbody := Visit.forall_branches (P := P) hl List.mem_cons_self body
      (List.mem_singleton_self _)
    refine Stmt.declares_eq_nil body (P := P.child 0) (fun v hv => hl v ?_) hbody
    exact List.mem_append_right _ hv

theorem Arm.declaresList_eq_nil {P : Place} (arms : List Arm)
    (hl : ∀ v ∈ Arm.visitsOfList P arms, v.isListed)
    (hs : ∀ a ∈ arms, a.branch.isDeclaration = false) : Arm.declaresList arms = [] := by
  match arms with
  | [] => rfl
  | ⟨token, condition, branch⟩ :: rest =>
    rw [List.forall_mem_cons] at hs
    have hbranch := Stmt.declares_eq_nil branch (P := P.child 0)
      (fun v hv => hl v <| by simp [Arm.visitsOfList, Arm.visits, hv]) hs.1
    have hrest := Arm.declaresList_eq_nil rest (P := (P.after branch.declares).child 1)
      (fun v hv => hl v <| by simp [Arm.visitsOfList, Arm.declares, hv]) hs.2
    rw [Arm.declaresList, Arm.declares, hbranch, hrest]
    rfl

end

theorem Visit.Plain.annotate {v : Visit} (h : v.Plain) (look : Numbering) :
    (v.annotate look).Plain := by
  obtain ⟨item, P⟩ := v
  rcases item with (e | s) | d | o | name
  · trivial
  · match s with
    | .conditional token condition branch arms none
    | .conditional token condition branch arms (some otherwise)
    | .loop token condition body => exact (Stmt.declares_annotate look P _).trans h
    | .hole | .expression .. | .print .. | .define _ | .block .. | .operation _ | .arm _
    | .return .. | .object .. | .enum .. | .form .. => trivial
  · trivial
  · trivial
  · exact h

theorem Program.fault?_eq_none {p : Program} (h : p.resolve.diagnostics = []) (program : Nat) :
    ∀ v ∈ p.visits program, v.fault? = none := by
  rw [p.resolve_eq program] at h
  intro v hv
  exact Option.map_eq_none_iff.1 (List.filterMap_eq_nil_iff.1 h v hv)

theorem Program.plain_visits {p : Program} (h : p.resolve.diagnostics = []) {program : Nat}
    (hlisted : ∀ v ∈ p.visits program, v.isListed) : ∀ v ∈ p.visits program, v.Plain := by
  rintro ⟨item, P⟩ hv
  have hwhole := p.whole_visits program
  have hbranching : ∀ s, item = .node (.stmt s) → s.isDeclaration = false → s.declares = [] := by
    rintro s rfl hs
    exact Stmt.declares_eq_nil s (fun v hv' => hlisted v (hwhole.stmts s P hv hv')) hs
  have hfault := p.fault?_eq_none h program _ hv
  rcases item with (e | s) | d | o | name
  · trivial
  · match s with
    | .conditional .. | .loop .. => exact hbranching _ rfl rfl
    | .hole | .expression .. | .print .. | .define _ | .block .. | .operation _ | .arm _
    | .return .. | .object .. | .enum .. | .form .. => trivial
  · trivial
  · trivial
  · intro hdeclared
    simp [Visit.fault?, hdeclared] at hfault

/-- The run stops because a variable is not bound. -/
def Stop.IsUndefined : Stop → Prop
  | .failure f => ∃ name, f.cause.message = "Undefined variable '" ++ name ++ "'."
  | _ => False

section

variable {m : Machine} {D : Nat} {x : String}

theorem Run.lookup_undefined_iff (token : Token) :
    (∃ stop, ((Run.lookup token x (some D)).run m).1 = .error stop ∧ stop.IsUndefined) ↔
      m.store.scopes.getAt? D m.current x = none := by
  rw [Run.lookup_run, Machine.target?, ← Scopes.getAt?]
  cases m.store.scopes.getAt? D m.current x with
  | none => exact ⟨fun _ => rfl, fun _ => ⟨_, rfl, x, rfl⟩⟩
  | some v => simp

theorem Run.assign_undefined_iff {name : Token} (hname : name.text = x) (written : Value) :
    (∃ stop, ((Run.assign name (some D) written).run m).1 = .error stop ∧ stop.IsUndefined) ↔
      m.store.scopes.getAt? D m.current x = none := by
  subst hname
  rw [Run.assign_run, Machine.target?, Scopes.getAt?]
  cases m.store.scopes.ancestor? D m.current with
  | none => exact ⟨fun _ => rfl, fun _ => ⟨_, rfl, name.text, rfl⟩⟩
  | some a =>
    rw [Option.bind_some]
    cases hget : m.store.scopes.get? a name.text with
    | none =>
      rw [Option.filter_some_neg (by simp [hget])]
      exact ⟨fun _ => rfl, fun _ => ⟨_, rfl, name.text, rfl⟩⟩
    | some v =>
      rw [Option.filter_some_pos (by simp [hget])]
      simp

/-- A reference with a number of hops stops the run if and only if the scope it leads to does not
bind its name. -/
theorem Expr.access_undefined_iff {e : Expr} {P : Place} (written : Value)
    (hx : e.refersTo? P = some x) (hD : e.hops? = some D) :
    (∃ stop, ((e.access written).run m).1 = .error stop ∧ stop.IsUndefined) ↔
      m.store.scopes.getAt? D m.current x = none := by
  match e with
  | .variable name hops =>
    obtain rfl : hops = some D := hD
    obtain rfl : name.text = x := Option.some.inj hx
    exact Run.lookup_undefined_iff name
  | .self keyword hops =>
    obtain rfl : hops = some D := hD
    obtain rfl : selfName = x := by
      simp only [Expr.refersTo?] at hx
      split at hx
      · exact Option.some.inj hx
      · cases hx
    exact Run.lookup_undefined_iff keyword
  | .assign name _ hops | .count _ _ name hops =>
    obtain rfl : hops = some D := hD
    exact Run.assign_undefined_iff (Option.some.inj hx) written
  | .hole | .literal .. | .unary .. | .binary .. | .logical .. | .call .. | .group .. | .get ..
  | .set .. | .parent _ | .global _ => cases hD

end

/-- In a decoded program without faults, only `self` can refer to the name in whose initial value it
stands. -/
theorem Program.eq_self_of_defining {ds : List Document} {p : Program} {program : Nat}
    (hp : Document.program ds = .ok p) (hdiag : p.resolve.diagnostics = [])
    (hforward : ∀ v ∈ p.visits program, v.isForward) {e : Expr} {P : Place} {x : String}
    (hv : ⟨.node (.expr e), P⟩ ∈ p.visits program) (hlocal : P.isLocal)
    (hx : e.refersTo? P = some x) (hd : P.defining = some x) :
    ∃ keyword hops, e = .self keyword hops ∧ x = selfName := by
  have hwhole := p.whole_visits program
  have hread : ∀ name hops, name.text = x →
      ⟨.node (.expr (.variable name hops)), P⟩ ∉ p.visits program := by
    intro name hops hname hmem
    have hfault := p.fault?_eq_none hdiag program _ hmem
    simp [Visit.fault?, hlocal, hd, hname] at hfault
  cases e with
  | «variable» name hops => exact absurd hv (hread name hops (Option.some.inj hx))
  | self keyword hops =>
    refine ⟨keyword, hops, rfl, ?_⟩
    simp only [Expr.refersTo?] at hx
    split at hx
    · exact (Option.some.inj hx).symm
    · cases hx
  | assign name value hops =>
    obtain ⟨d, Q, e, hmem, hname, hpart, hitem⟩ := hwhole.initials _ hv x hd
    obtain rfl := Node.expr.inj (Item.node.inj hitem)
    have hne := List.all_eq_true.1 (hforward _ hmem) _ hpart
    exact absurd ((Option.some.inj hx).trans hname.symm) (bne_iff_ne.1 hne)
  | count operator target name hops =>
    have hnode : Node.expr (.count operator target name hops) ∈ p.nodes :=
      (p.nodes_visits_perm program).subset (List.mem_filterMap.2 ⟨_, hv, rfl⟩)
    -- a count reads its variable first, and that read is already at fault
    obtain ⟨_, rfl⟩ := Document.program_counts hp _ hnode
    have htarget := hwhole.parts _ P hv (.variable name _)
      (List.mem_cons_of_mem _ (List.mem_singleton_self _))
    exact absurd htarget (hread name _ (Option.some.inj hx))
  | _ => cases hx

theorem Expr.refersTo?_annotate (look : Numbering) (P : Place) (e : Expr) :
    (e.annotate look P).refersTo? P = e.refersTo? P := by
  cases e <;> rfl

/-- In a strict text, of the names that the place sees the nearest scope binds all but the one that
is being defined. -/
theorem Moment.Agrees.getAt?_eq_none_iff {T : Texts} {x : Moment} (h : x.Agrees T)
    (hs : T.strict x.place.program) {ss : Symbols} (hss : ss.Fits x.place) {name : String} {D : Nat}
    (hD : x.place.distance? name = some D) :
    x.state.machine.store.scopes.getAt? D x.state.machine.current name = none ↔
      x.place.defining = some name := by
  obtain ⟨⟨layer, hlayer, hname⟩, hleast⟩ := Place.distance?_eq_some_iff.1 hD
  rw [Scopes.getAt?]
  constructor
  · intro hnone
    rcases h.occupies.1.2.2 hs D layer name hlayer hname with ⟨a, ha, hb⟩ | ⟨-, hd⟩
    · have hreach : x.state.machine.store.scopes.ancestor? D x.state.machine.current = some a := ha
      rw [hreach, Option.bind_some, ← Option.not_isSome_iff_eq_none] at hnone
      exact absurd hb hnone
    · exact hd
  · intro hd
    -- The definition declared the name in the innermost scope, so that is where the hops lead.
    have hzero : D = 0 := by
      cases hhead : x.place.layers.head? with
      | none => simp [List.head?_eq_none_iff.1 hhead] at hlayer
      | some first =>
        refine Nat.le_zero.1 (hleast ⟨first, ?_, hss.2 name hd first hhead⟩)
        rw [← List.head?_eq_getElem?, hhead]
        rfl
    subst hzero
    rw [← List.head?_eq_getElem?] at hlayer
    have hexact := h.occupies.2 hs layer hlayer name
    rw [Scopes.ancestor?, Option.bind_some, ← Option.not_isSome_iff_eq_none]
    exact fun hb => (hexact hb).2 hd

namespace Observed

/-- Let a decoded program without faults be one of the programs of a session, with declarations only
in lists of statements and no assignment to a name in the initial value of its own definition. Then
in every run of it a reference with a number of hops finds its variable, except for `self` in the
initial value of a definition of `self`, which never does. -/
theorem undefined_iff_self_in_initializer (clock : Clock) (modules : List Module)
    {programs : List (Nat × Program)} {program fuel : Nat} {p : Program} {ds : List Document}
    (hprogram : programs[program]? = some (fuel, p)) (hp : Document.program ds = .ok p)
    (hdiag : p.resolve.diagnostics = []) (hlisted : ∀ v ∈ p.visits program, v.isListed)
    (hforward : ∀ v ∈ p.visits program, v.isForward) :
    (session clock modules programs).state.machine =
      (Machine.start clock (modules.flatMap Module.entries)).interpretAll programs ∧
    ∀ x ∈ (session clock modules programs).past, x.place.program = program →
      ∀ e written D, x.sight = .access e written → e.hops? = some D →
        ((∃ stop, ((e.access written).run x.state.machine).1 = .error stop ∧ stop.IsUndefined) ↔
          (∃ keyword, e = .self keyword (some D)) ∧ x.place.defining = some selfName) := by
  refine ⟨machine_interpretAll _ 0 programs, ?_⟩
  intro x hx hplace e written D hsight hD
  have hplain : (Texts.ofSession programs (· = program)).Plain := by
    rintro v ⟨entry, hentry, hv⟩ hs
    obtain rfl : v.place.program = program := hs
    obtain rfl := Option.some.inj (hprogram.symm.trans hentry)
    rw [Program.visits_resolve] at hv
    obtain ⟨v₀, hv₀, rfl⟩ := List.mem_map.1 hv
    exact (Program.plain_visits hdiag hlisted v₀ hv₀).annotate _
  have hagrees := session_agrees clock modules hplain x hx
  obtain ⟨entry, hentry, hvisit⟩ := hagrees.visit
  rw [hplace] at hentry hvisit
  obtain rfl := Option.some.inj (hprogram.symm.trans hentry)
  obtain ⟨k, hk⟩ := List.mem_iff_getElem?.1 hvisit
  obtain ⟨c, -, -, hfits⟩ := Program.exists_encounter hk
  rw [Program.visits_resolve, hsight] at hvisit
  obtain ⟨⟨item, P⟩, hv, hann⟩ := List.mem_map.1 hvisit
  obtain ⟨hitem, rfl⟩ := Visit.mk.inj hann
  obtain ⟨e₀, rfl, rfl⟩ := Item.exists_of_annotate_eq_expr hitem
  have hdist := (Expr.hops?_annotate _ _ _).symm.trans hD
  rw [Expr.refersTo?_annotate] at hdist
  obtain ⟨name, hname, hdist⟩ := Option.bind_eq_some_iff.1 hdist
  rw [Expr.access_undefined_iff written ((Expr.refersTo?_annotate _ _ _).trans hname) hD,
    hagrees.getAt?_eq_none_iff hplace hfits hdist]
  constructor
  · intro hd
    have hlocal : x.place.isLocal := by
      have hlt := Place.lt_length_of_distance? hdist
      simpa [Place.isLocal, List.length_pos_iff] using Nat.zero_lt_of_lt hlt
    obtain ⟨keyword, hops, rfl, rfl⟩ :=
      Program.eq_self_of_defining hp hdiag hforward hv hlocal hname hd
    have hhops : Numbering.ofSelf Place.distance? x.place = some D := hD
    exact ⟨⟨keyword, by rw [Expr.annotate, hhops]⟩, hd⟩
  · rintro ⟨⟨keyword, he⟩, hd⟩
    rw [← Expr.refersTo?_annotate Place.distance?, he] at hname
    simp only [Expr.refersTo?] at hname
    split at hname
    · rw [← hname]
      exact hd
    · cases hname

end Observed

/-- An object whose method defines `self` to be `self`, and a call of the method. -/
def selfDefined : Program :=
  [.object ⟨.keyword .object, "obj", 1, .null⟩ ⟨.identifier, "O", 1, .null⟩
    [⟨⟨.keyword .operation, "op", 1, .null⟩, ⟨.identifier, "m", 1, .null⟩, [],
      [.define ⟨⟨.keyword .define, "def", 1, .null⟩, ⟨.identifier, "self", 1, .null⟩,
        some (.self ⟨.keyword .self, "self", 1, .null⟩ none)⟩]⟩],
    .expression ⟨.identifier, ")", 1, .null⟩ (.call (.get (.call
      (.variable ⟨.identifier, "O", 1, .null⟩ none) ⟨.mark .close, ")", 1, .null⟩ [])
      ⟨.identifier, "m", 1, .null⟩) ⟨.mark .close, ")", 1, .null⟩ [])]

def selfDefinedDocument : List Document :=
  [.mapping [("type", .text "Obj"), ("name", .text "O"), ("methods", .list [
      .mapping [("name", .text "m"), ("body", .list [
        .mapping [("type", .text "Def"), ("name", .text "self"),
          ("initial", .mapping [("type", .text "Self")])]])]])],
    .mapping [("type", .text "Expression"), ("expression", .mapping [("type", .text "Call"),
      ("callee", .mapping [("type", .text "Get"), ("name", .text "m"),
        ("object", .mapping [("type", .text "Call"),
          ("callee", .mapping [("type", .text "Variable"), ("name", .text "O")])])])])]]

theorem selfDefined_undefined :
    Document.program selfDefinedDocument = .ok selfDefined ∧
    selfDefined.resolve.diagnostics = [] ∧
    (∀ v ∈ selfDefined.visits 0, v.isListed) ∧ (∀ v ∈ selfDefined.visits 0, v.isForward) ∧
    ∃ x ∈ (Observed.session ⟨fun _ => 0, 0⟩ [] [(20, selfDefined)]).past, ∃ keyword written stop,
      x.sight = .access (.self keyword (some 0)) written ∧
      ((Expr.access written (.self keyword (some 0))).run x.state.machine).1 = .error stop ∧
      stop.IsUndefined := by
  have hp : Document.program selfDefinedDocument = .ok selfDefined := by
    with_unfolding_all rfl
  have hdiag : selfDefined.resolve.diagnostics = [] := List.isEmpty_iff.1 (by decide +kernel)
  have hlisted : ∀ v ∈ selfDefined.visits 0, v.isListed := by decide
  have hforward : ∀ v ∈ selfDefined.visits 0, v.isForward := by decide
  have hread : (Observed.session ⟨fun _ => 0, 0⟩ [] [(20, selfDefined)]).past.any (fun x =>
      x.sight.readsSelf 0 && x.place.program == 0 && x.place.defining == some selfName) = true := by
    decide +kernel
  obtain ⟨x, hx, hself⟩ := List.any_eq_true.1 hread
  obtain ⟨-, hall⟩ := Observed.undefined_iff_self_in_initializer ⟨fun _ => 0, 0⟩ []
    (show [(20, selfDefined)][0]? = some (20, selfDefined) from rfl) hp hdiag hlisted hforward
  refine ⟨hp, hdiag, hlisted, hforward, x, hx, ?_⟩
  simp only [Bool.and_eq_true, beq_iff_eq] at hself
  obtain ⟨⟨hself, hplace⟩, hdefining⟩ := hself
  obtain ⟨keyword, written, hsight⟩ := Sight.exists_of_readsSelf hself
  obtain ⟨stop, hstop, hundefined⟩ :=
    (hall x hx hplace _ written 0 hsight rfl).2 ⟨⟨keyword, rfl⟩, hdefining⟩
  exact ⟨keyword, written, stop, hsight, hstop, hundefined⟩

end Treescript
