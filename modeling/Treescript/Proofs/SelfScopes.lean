import Treescript.Proofs.Declarations
import Treescript.Proofs.LexicalDistance

/-!
# The scopes of `self`

In a text that gives the name `self` to nothing of its own, the local scopes that declare `self` are
the ones around the methods of objects. Every expression in an object has such a scope around it,
and never as the innermost one, since the scope of a method lies in between.
-/

namespace Treescript

/-- What is visited declares `self` or writes to it. -/
def Visit.NamesSelf (v : Visit) : Prop :=
  match v.item with
  | .declaration name => name.text = selfName
  | .node (.expr (.assign name _ _)) => name.text = selfName
  | .node (.expr (.count _ _ name _)) => name.text = selfName
  | _ => False

instance : DecidablePred Visit.NamesSelf
  | ⟨.declaration name, _⟩ | ⟨.node (.expr (.assign name _ _)), _⟩
  | ⟨.node (.expr (.count _ _ name _)), _⟩ => inferInstanceAs (Decidable (name.text = selfName))
  | ⟨.member _, _⟩ | ⟨.method _, _⟩ | ⟨.node (.stmt _), _⟩ | ⟨.node (.expr .hole), _⟩
  | ⟨.node (.expr (.literal ..)), _⟩ | ⟨.node (.expr (.variable ..)), _⟩
  | ⟨.node (.expr (.unary ..)), _⟩ | ⟨.node (.expr (.binary ..)), _⟩
  | ⟨.node (.expr (.logical ..)), _⟩ | ⟨.node (.expr (.call ..)), _⟩
  | ⟨.node (.expr (.group ..)), _⟩ | ⟨.node (.expr (.self ..)), _⟩
  | ⟨.node (.expr (.get ..)), _⟩ | ⟨.node (.expr (.set ..)), _⟩
  | ⟨.node (.expr (.parent _)), _⟩ | ⟨.node (.expr (.global _)), _⟩ =>
    inferInstanceAs (Decidable False)

/-- A scope around methods. -/
def Layer.IsSelf (layer : Layer) : Prop :=
  layer.region.names = [selfName] ∧ layer.seen = [selfName]

def Layer.Selfless (layer : Layer) : Prop :=
  selfName ∉ layer.region.names ∧ selfName ∉ layer.seen

structure Place.Marked (P : Place) : Prop where
  layers : ∀ layer ∈ P.layers, layer.IsSelf ∨ layer.Selfless
  inObject : P.inObject → ∃ layer ∈ P.layers, layer.IsSelf

/-- The innermost scope is none around methods. -/
structure Place.Inner (P : Place) : Prop extends P.Marked where
  head : ∀ layer ∈ P.layers.head?, layer.Selfless

theorem Visit.selfName_not_mem {vs : List Visit} (h : ∀ v ∈ vs, ¬v.NamesSelf) {xs : List String}
    (hx : ∀ x ∈ xs, ∃ name Q, name.text = x ∧ ⟨.declaration name, Q⟩ ∈ vs) : selfName ∉ xs := by
  intro hmem
  obtain ⟨name, Q, hname, hv⟩ := hx selfName hmem
  exact h _ hv hname

theorem Layer.IsSelf.not_selfless {layer : Layer} (h : layer.IsSelf) : ¬layer.Selfless := by
  intro hs
  rw [Layer.Selfless, h.1] at hs
  exact hs.1 (List.mem_singleton_self _)

namespace Place

variable {P : Place}

theorem inner_top (program : Nat) : (top program).Inner :=
  ⟨⟨List.forall_mem_nil _, nofun⟩, nofun⟩

theorem Marked.child (h : P.Marked) (i : Nat) : (P.child i).Marked := ⟨h.layers, h.inObject⟩

theorem Inner.child (h : P.Inner) (i : Nat) : (P.child i).Inner := ⟨h.toMarked.child i, h.head⟩

theorem Inner.after (h : P.Inner) {names : List String} (hn : selfName ∉ names) :
    (P.after names).Inner := by
  obtain ⟨_, _, layers, _, _, _⟩ := P
  cases layers with
  | nil => exact h
  | cons layer outer =>
    obtain ⟨⟨hlayers, hobject⟩, hhead⟩ := h
    have hlayer := hhead layer rfl
    have hfirst : Layer.Selfless { layer with seen := layer.seen ++ names } :=
      ⟨hlayer.1, fun hmem => (List.mem_append.1 hmem).elim hlayer.2 hn⟩
    refine ⟨⟨List.forall_mem_cons.2 ⟨.inr hfirst, (List.forall_mem_cons.1 hlayers).2⟩, ?_⟩, ?_⟩
    · intro hin
      obtain ⟨found, hfound, hself⟩ := hobject hin
      rcases List.mem_cons.1 hfound with rfl | hfound
      · exact absurd hlayer hself.not_selfless
      · exact ⟨found, List.mem_cons_of_mem _ hfound, hself⟩
    · rintro _ ⟨⟩
      exact hfirst

theorem Inner.declare (h : P.Inner) {x : String} (hx : x ≠ selfName) : (P.after [x]).Inner :=
  h.after fun hmem => hx (List.mem_singleton.1 hmem).symm

theorem Inner.initializer (h : P.Inner) {x : String} (hx : x ≠ selfName) :
    (P.initializer x).Inner := by
  obtain ⟨⟨hlayers, hobject⟩, hhead⟩ := h.declare hx
  exact ⟨⟨hlayers, hobject⟩, hhead⟩

theorem Marked.enter (h : P.Marked) {names : List String} (hn : selfName ∉ names) :
    (P.enter names).Inner := by
  have hfirst : Layer.Selfless ⟨⟨P.program, P.path, names⟩, []⟩ := ⟨hn, List.not_mem_nil⟩
  refine ⟨⟨List.forall_mem_cons.2 ⟨.inr hfirst, h.layers⟩, fun hin => ?_⟩, ?_⟩
  · obtain ⟨layer, hlayer, hself⟩ := h.inObject hin
    exact ⟨layer, List.mem_cons_of_mem _ hlayer, hself⟩
  · rintro _ ⟨⟩
    exact hfirst

theorem Marked.operation (h : P.Marked) {o : Operation} (ho : selfName ∉ o.locals) :
    (P.operation o).Inner := by
  obtain ⟨⟨hlayers, hobject⟩, hhead⟩ := h.enter ho
  exact ⟨⟨hlayers, hobject⟩, hhead⟩

theorem Marked.object (h : P.Marked) : P.object.Marked :=
  ⟨List.forall_mem_cons.2 ⟨.inl ⟨rfl, rfl⟩, h.layers⟩,
    fun _ => ⟨_, List.mem_cons_self, rfl, rfl⟩⟩

end Place

/-- If an expression is visited, its place is an inner one. -/
def Visit.Inside (v : Visit) : Prop := ∀ e, v.item = .node (.expr e) → v.place.Inner

theorem Expr.inside_visits {P : Place} (h : P.Inner) (e : Expr) :
    ∀ v ∈ e.visits P, v.Inside := by
  intro v hv
  obtain ⟨part, -, rfl⟩ := List.mem_map.1 hv
  exact fun _ _ => h

theorem Expr.inside_visitsOptional {P : Place} (h : P.Inner) (e? : Option Expr) :
    ∀ v ∈ Expr.visitsOptional P e?, v.Inside := by
  cases e? with
  | none => exact List.forall_mem_nil _
  | some e => exact e.inside_visits h

theorem Token.inside_visitsOfParams (P : Place) (params : List Token) :
    ∀ v ∈ Token.visitsOfParams P params, v.Inside := by
  induction params generalizing P with
  | nil => exact List.forall_mem_nil _
  | cons param params ih => exact List.forall_mem_cons.2 ⟨nofun, ih _⟩

theorem Definition.inside_visitsOfMembers {P : Place} (h : P.Inner) (ds : List Definition)
    (hs : ∀ v ∈ Definition.visitsOfMembers P ds, ¬v.NamesSelf) :
    ∀ v ∈ Definition.visitsOfMembers P ds, v.Inside := by
  induction ds generalizing P with
  | nil => exact List.forall_mem_nil _
  | cons d ds ih =>
    rw [Definition.visitsOfMembers, List.cons_append, List.forall_mem_cons,
      List.forall_mem_append, List.forall_mem_cons] at hs ⊢
    obtain ⟨-, -, hname, hrest⟩ := hs
    refine ⟨?_, Expr.inside_visitsOptional h d.initial, ?_, ih (h.declare hname) hrest⟩
    · rintro e ⟨⟩
    · rintro e ⟨⟩

mutual

theorem Stmt.inside_visits {P : Place} (h : P.Inner) (s : Stmt)
    (hs : ∀ v ∈ s.visits P, ¬v.NamesSelf) : ∀ v ∈ s.visits P, v.Inside := by
  match s with
  | .hole => exact List.forall_mem_singleton.2 nofun
  | .enum .. => exact List.forall_mem_cons.2 ⟨nofun, List.forall_mem_singleton.2 nofun⟩
  | .expression _ value | .print _ value =>
    exact List.forall_mem_cons.2 ⟨nofun, value.inside_visits h⟩
  | .define d =>
    simp only [Stmt.visits, List.forall_mem_cons] at hs ⊢
    exact ⟨nofun, nofun, Expr.inside_visitsOptional (h.initializer hs.2.1) d.initial⟩
  | .block _ body =>
    simp only [Stmt.visits, List.forall_mem_cons] at hs ⊢
    have hnames := Visit.selfName_not_mem hs.2 (Stmt.exists_declarationOfList _ body)
    exact ⟨nofun, Stmt.inside_visitsOfList (h.enter hnames) body hs.2⟩
  | .operation o =>
    simp only [Stmt.visits, List.forall_mem_cons] at hs ⊢
    have hafter := h.declare hs.2.1
    exact ⟨nofun, nofun, Operation.inside_visits hafter.toMarked o hs.2.2⟩
  | .conditional _ condition branch arms none =>
    simp only [Stmt.visits, List.cons_append, List.forall_mem_cons, List.forall_mem_append] at hs ⊢
    obtain ⟨-, ⟨-, hbranch⟩, harms⟩ := hs
    have hnames := Visit.selfName_not_mem hbranch (Stmt.exists_declaration _ branch)
    exact ⟨nofun, ⟨condition.inside_visits h, Stmt.inside_visits (h.child 0) branch hbranch⟩,
      Arm.inside_visitsOfList ((h.after hnames).child 1) arms harms⟩
  | .conditional _ condition branch arms (some last) =>
    simp only [Stmt.visits, List.cons_append, List.forall_mem_cons, List.forall_mem_append] at hs ⊢
    obtain ⟨-, ⟨⟨-, hbranch⟩, harms⟩, hlast⟩ := hs
    have hnames := Visit.selfName_not_mem hbranch (Stmt.exists_declaration _ branch)
    have hothers := Visit.selfName_not_mem harms (Arm.exists_declarationOfList _ arms)
    have hboth : selfName ∉ branch.declares ++ Arm.declaresList arms :=
      fun hmem => (List.mem_append.1 hmem).elim hnames hothers
    exact ⟨nofun, ⟨⟨condition.inside_visits h, Stmt.inside_visits (h.child 0) branch hbranch⟩,
      Arm.inside_visitsOfList ((h.after hnames).child 1) arms harms⟩,
      Stmt.inside_visits ((h.after hboth).child 2) last hlast⟩
  | .arm a =>
    simp only [Stmt.visits, List.forall_mem_cons] at hs ⊢
    exact ⟨nofun, Arm.inside_visits h a hs.2⟩
  | .loop _ condition body =>
    simp only [Stmt.visits, List.cons_append, List.forall_mem_cons, List.forall_mem_append] at hs ⊢
    exact ⟨nofun, condition.inside_visits h, Stmt.inside_visits (h.child 0) body hs.2.2⟩
  | .return _ value => exact List.forall_mem_cons.2 ⟨nofun, Expr.inside_visitsOptional h value⟩
  | .object _ name methods =>
    simp only [Stmt.visits, List.forall_mem_cons] at hs ⊢
    have hafter := h.declare hs.2.1
    exact ⟨nofun, nofun, Operation.inside_visitsOfList hafter.toMarked.object methods hs.2.2⟩
  | .form _ name members =>
    simp only [Stmt.visits, List.forall_mem_cons] at hs ⊢
    have hafter := h.declare hs.2.1
    exact ⟨nofun, nofun, Definition.inside_visitsOfMembers hafter members hs.2.2⟩

theorem Stmt.inside_visitsOfList {P : Place} (h : P.Inner) (ss : List Stmt)
    (hs : ∀ v ∈ Stmt.visitsOfList P ss, ¬v.NamesSelf) :
    ∀ v ∈ Stmt.visitsOfList P ss, v.Inside := by
  match ss with
  | [] => exact List.forall_mem_nil _
  | s :: ss =>
    rw [Stmt.visitsOfList, List.forall_mem_append] at hs ⊢
    have hnames := Visit.selfName_not_mem hs.1 (Stmt.exists_declaration _ s)
    exact ⟨Stmt.inside_visits (h.child 0) s hs.1,
      Stmt.inside_visitsOfList ((h.after hnames).child 1) ss hs.2⟩

theorem Operation.inside_visits {P : Place} (h : P.Marked) (o : Operation)
    (hs : ∀ v ∈ o.visits P, ¬v.NamesSelf) : ∀ v ∈ o.visits P, v.Inside := by
  have hlocals := Visit.selfName_not_mem hs (o.exists_declaration P)
  match o with
  | ⟨token, name, params, body⟩ =>
    have hparams : selfName ∉ params.map (·.text) :=
      fun hmem => hlocals (List.mem_append_left _ hmem)
    rw [Operation.visits, List.forall_mem_append] at hs ⊢
    exact ⟨Token.inside_visitsOfParams _ params,
      Stmt.inside_visitsOfList ((h.operation hlocals).after hparams) body hs.2⟩

theorem Operation.inside_visitsOfList {P : Place} (h : P.Marked) (os : List Operation)
    (hs : ∀ v ∈ Operation.visitsOfList P os, ¬v.NamesSelf) :
    ∀ v ∈ Operation.visitsOfList P os, v.Inside := by
  match os with
  | [] => exact List.forall_mem_nil _
  | o :: os =>
    simp only [Operation.visitsOfList, List.cons_append, List.forall_mem_cons,
      List.forall_mem_append] at hs ⊢
    exact ⟨nofun, Operation.inside_visits (h.child 0) o hs.2.1,
      Operation.inside_visitsOfList (h.child 1) os hs.2.2⟩

theorem Arm.inside_visits {P : Place} (h : P.Inner) (a : Arm)
    (hs : ∀ v ∈ a.visits P, ¬v.NamesSelf) : ∀ v ∈ a.visits P, v.Inside := by
  match a with
  | ⟨_, condition, branch⟩ =>
    rw [Arm.visits, List.forall_mem_append] at hs ⊢
    exact ⟨condition.inside_visits h, Stmt.inside_visits h branch hs.2⟩

theorem Arm.inside_visitsOfList {P : Place} (h : P.Inner) (as : List Arm)
    (hs : ∀ v ∈ Arm.visitsOfList P as, ¬v.NamesSelf) :
    ∀ v ∈ Arm.visitsOfList P as, v.Inside := by
  match as with
  | [] => exact List.forall_mem_nil _
  | a :: rest =>
    simp only [Arm.visitsOfList, List.cons_append, List.forall_mem_cons,
      List.forall_mem_append] at hs ⊢
    have hnames := Visit.selfName_not_mem hs.2.1 (Arm.exists_declaration _ a)
    exact ⟨nofun, Arm.inside_visits (h.child 0) a hs.2.1,
      Arm.inside_visitsOfList ((h.after hnames).child 1) rest hs.2.2⟩

end

/-- Seen from an expression in an object, `self` is declared by the nearest scope around methods. -/
theorem Place.Inner.distance?_selfName {P : Place} (h : P.Inner) (ho : P.inObject) :
    ∃ D layer, P.distance? selfName = some (D + 1) ∧ P.layers[D + 1]? = some layer ∧
      layer.IsSelf ∧ ∀ (k : Nat) (inner : Layer), k ≤ D → P.layers[k]? = some inner →
        inner.Selfless := by
  have hseen : ∀ layer : Layer, layer.IsSelf → selfName ∈ layer.seen := by
    intro layer hself
    rw [hself.2]
    exact List.mem_singleton_self _
  obtain ⟨around, haround, hself⟩ := h.inObject ho
  cases hD : P.distance? selfName with
  | none =>
    have hnone := List.findIdx?_eq_none_iff.1 hD around haround
    exact absurd (hseen around hself) (of_decide_eq_false hnone)
  | some D =>
    obtain ⟨⟨layer, hlayer, hmem⟩, hleast⟩ := Place.distance?_eq_some_iff.1 hD
    have his : layer.IsSelf :=
      (h.layers layer (List.mem_of_getElem? hlayer)).resolve_right fun hless => hless.2 hmem
    cases D with
    | zero =>
      rw [← List.head?_eq_getElem?] at hlayer
      exact absurd (h.head layer hlayer) his.not_selfless
    | succ D =>
      refine ⟨D, layer, rfl, hlayer, his, fun k inner hk hinner => ?_⟩
      refine (h.layers inner (List.mem_of_getElem? hinner)).resolve_left fun hinner' => ?_
      have hle : D + 1 ≤ k := hleast ⟨inner, hinner, hseen inner hinner'⟩
      omega

/-- The scopes around an expression in an object, from the inside: some that do not declare `self`,
the scope of the innermost method, the scope around the methods. -/
theorem Place.Inner.drop_regions {P : Place} (h : P.Inner) (ho : P.inObject) :
    ∃ D region outer, P.distance? selfName = some (D + 1) ∧
      P.regions.drop (D + 1) = region :: outer ∧ region.names = [selfName] ∧
      ∀ inner ∈ P.regions.take D, selfName ∉ inner.names := by
  obtain ⟨D, layer, hdist, hlayer, hself, hinner⟩ := h.distance?_selfName ho
  have hregion : P.regions[D + 1]? = some layer.region := by
    rw [Place.regions, List.getElem?_map, hlayer]
    rfl
  obtain ⟨hlt, heq⟩ := List.getElem?_eq_some_iff.1 hregion
  refine ⟨D, layer.region, P.regions.drop (D + 2), hdist, ?_, hself.1, ?_⟩
  · rw [List.drop_eq_getElem_cons hlt, heq]
  · intro inner hmem
    rw [Place.regions, ← List.map_take] at hmem
    obtain ⟨found, hfound, rfl⟩ := List.mem_map.1 hmem
    obtain ⟨k, hk⟩ := List.mem_iff_getElem?.1 hfound
    rw [List.getElem?_take] at hk
    split at hk
    · next hlt => exact (hinner k found hlt.le hk).1
    · cases hk

end Treescript
