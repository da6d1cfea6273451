import Treescript.Proofs.Declarations
import Treescript.Proofs.ResolverWalk
import Treescript.Proofs.Revisions

/-!
# Revisions are resolved

A revision of a resolved program is itself resolved: the numbers of hops that the revision has are
those that resolution would give it, and where the original has no fault the revision has none. The
places of the two texts go in step. Of the scopes around them the added ones declare nothing, and
the others declare what they do in the original, under new names.
-/

namespace Treescript

variable {L : Licence}

/-- The revision declares the same names anew, and none where the original does not have the
scope. -/
structure Frame.Declares (fs : List Frame) (names names' : List String) : Prop where
  renamed : names' = names.map (Frame.naming fs 0)
  unless_added : Frame.here? fs = none → names = []

namespace Frame.Declares

variable {fs : List Frame} {xs xs' ys ys' : List String}

theorem nil : Declares fs [] [] := ⟨rfl, fun _ => rfl⟩

theorem append (h : Declares fs xs xs') (h' : Declares fs ys ys') :
    Declares fs (xs ++ ys) (xs' ++ ys') :=
  ⟨by rw [h.renamed, h'.renamed, List.map_append],
    fun hn => by rw [h.unless_added hn, h'.unless_added hn, List.append_nil]⟩

theorem of_here {names : Equiv.Perm String} (h : here? fs = some names) (xs : List String) :
    Declares fs xs (xs.map names) :=
  ⟨by rw [naming_zero h], fun hn => by rw [h] at hn; cases hn⟩

theorem of_fixed {names : Equiv.Perm String} (h : here? fs = some names)
    (hx : ∀ x ∈ xs, names x = x) : Declares fs xs xs := by
  have hd := of_here h xs
  rwa [List.map_congr_left hx, List.map_id'] at hd

end Frame.Declares

mutual

theorem Stmt.declares_of_alters {fs : List Frame} {s s' : Stmt} (h : s.Alters L fs s') :
    Frame.Declares fs s.declares s'.declares := by
  match s, s', h with
  | .hole, _, .hole | .expression .., _, .expression .. | .print .., _, .print ..
  | .block .., _, .block .. | .return .., _, .return .. => exact .nil
  | .define _, _, .define hhere _ => exact .of_here hhere _
  | .operation ⟨_, _, _, _⟩, _, .operation hhere hname (.mk _ _) =>
    exact .of_fixed hhere (List.forall_mem_singleton.2 hname)
  | .conditional _ _ branch arms none, _, .conditional _ hb ha =>
    exact (Stmt.declares_of_revises hb).append (Arm.declaresList_of_revises ha)
  | .conditional _ _ branch arms (some last), _, .otherwise _ hb ha hl =>
    exact ((Stmt.declares_of_revises hb).append (Arm.declaresList_of_revises ha)).append
      (Stmt.declares_of_revises hl)
  | .arm a, _, .arm ha => exact Arm.declares_of_revises ha
  | .loop _ _ body, _, .loop _ hb =>
    have hd := Stmt.declares_of_revises hb
    exact hd
  | .object .., _, .object hhere hname _ | .enum .., _, .enum hhere hname =>
    exact .of_fixed hhere (List.forall_mem_singleton.2 hname)
  | .form _ name members, _, .form hhere hname hm =>
    have hmembers : (members.map (·.reviseInitial fs)).map (·.name.text) =
        members.map (·.name.text) := Definition.names_relabelInitial _ members
    rw [Stmt.declares, Stmt.declares, hmembers]
    refine .of_fixed hhere (List.forall_mem_cons.2 ⟨hname, fun x hx => ?_⟩)
    obtain ⟨d, hd, rfl⟩ := List.mem_map.1 hx
    exact (hm d hd).1

theorem Stmt.declares_of_revises {fs : List Frame} {s s' : Stmt} (h : s.Revises L fs s') :
    Frame.Declares fs s.declares s'.declares := by
  match h with
  | .plain ha => exact Stmt.declares_of_alters ha
  | .wrapped _ _ hd _ =>
    rw [hd]
    exact .nil

theorem Arm.declares_of_revises {fs : List Frame} {a a' : Arm} (h : a.Revises L fs a') :
    Frame.Declares fs a.declares a'.declares := by
  match a, a', h with
  | ⟨_, _, branch⟩, _, .mk _ hb => exact Stmt.declares_of_revises hb

theorem Arm.declaresList_of_revises {fs : List Frame} {as as' : List Arm}
    (h : Arm.RevisesList L fs as as') :
    Frame.Declares fs (Arm.declaresList as) (Arm.declaresList as') := by
  match as, as', h with
  | [], _, .nil => exact .nil
  | a :: rest, _, .cons ha hrest =>
    exact (Arm.declares_of_revises ha).append (Arm.declaresList_of_revises hrest)

end

theorem Stmt.declaresList_of_revises {fs : List Frame} {ss ss' : List Stmt}
    (h : Stmt.RevisesList L fs ss ss') :
    Frame.Declares fs (Stmt.declaresList ss) (Stmt.declaresList ss') := by
  match h with
  | .nil => exact .nil
  | .cons hs hss => exact (Stmt.declares_of_revises hs).append (Stmt.declaresList_of_revises hss)

/-- Scope by scope: the added ones declare nothing, the others what they did under new names. -/
inductive Frame.Links (L : Licence) : List Frame → List Layer → List Layer → Prop
  | nil : Links L [] [] []
  | shared {names : Equiv.Perm String} {fs : List Frame} {layer layer' : Layer}
      {outer outer' : List Layer} : L.renames names → (∀ x ∈ layer.seen, ¬L.fresh x) →
      layer'.seen = layer.seen.map names → Links L fs outer outer' →
      Links L (shared names :: fs) (layer :: outer) (layer' :: outer')
  | added {fs : List Frame} {layers : List Layer} {layer' : Layer} {outer' : List Layer} :
      layer'.seen = [] → Links L fs layers outer' →
      Links L (added :: fs) layers (layer' :: outer')

/-- The number of scopes out to the nearest that declares a name. -/
def Layer.distance? (layers : List Layer) (x : String) : Option Nat :=
  layers.findIdx? fun layer => decide (x ∈ layer.seen)

theorem Layer.distance?_cons (layer : Layer) (outer : List Layer) (x : String) :
    Layer.distance? (layer :: outer) x =
      if x ∈ layer.seen then some 0 else (Layer.distance? outer x).map (· + 1) := by
  rw [Layer.distance?, List.findIdx?_cons]
  simp only [decide_eq_true_eq]
  rfl

namespace Frame.Links

variable {fs : List Frame} {layers layers' : List Layer}

theorem licensed (h : Links L fs layers layers') : Licensed L fs := by
  induction h with
  | nil => exact fun _ hn => absurd hn List.not_mem_nil
  | shared hr _ _ _ ih => exact ih.cons hr
  | added _ _ ih => exact ih.cons_added

/-- A reference to a name that is not fresh leads to the same scope, past the added ones. -/
theorem distance?_eq (h : Links L fs layers layers') {x : String} (hx : ¬L.fresh x) :
    Layer.distance? layers' (namingOf fs (Layer.distance? layers x) x) =
      (Layer.distance? layers x).map (shift fs) := by
  induction h with
  | nil => rfl
  | @shared names fs layer layer' outer outer' hr hseen hlayer hlinks ih =>
    have hdistance := Layer.distance?_cons layer outer x
    by_cases hmem : x ∈ layer.seen
    · rw [if_pos hmem] at hdistance
      rw [hdistance, Layer.distance?_cons, hlayer]
      exact if_pos (List.mem_map_of_mem hmem)
    · rw [if_neg hmem] at hdistance
      have hnaming : namingOf (.shared names :: fs) ((Layer.distance? outer x).map (· + 1)) =
          namingOf fs (Layer.distance? outer x) := by
        cases Layer.distance? outer x <;> rfl
      -- the new name is not one that the scope has given to another variable
      have hnone : namingOf fs (Layer.distance? outer x) x ∉ layer'.seen := by
        rw [hlayer]
        intro hc
        obtain ⟨y, hy, heq⟩ := List.mem_map.1 hc
        obtain rfl := L.apart hr (hlinks.licensed.namingOf _) (hseen y hy) hx heq
        exact hmem hy
      rw [hdistance, hnaming, Layer.distance?_cons, if_neg hnone, ih, Option.map_map,
        Option.map_map]
      rfl
  | @added fs layers layer' outer' hseen hlinks ih =>
    have hnaming : namingOf (.added :: fs) (Layer.distance? layers x) =
        namingOf fs (Layer.distance? layers x) := by
      cases Layer.distance? layers x <;> rfl
    rw [hnaming, Layer.distance?_cons, hseen, if_neg List.not_mem_nil, ih, Option.map_map]
    rfl

theorem ne_nil (h : Links L fs layers layers') (hne : layers ≠ []) : layers' ≠ [] := by
  cases h with
  | nil => exact hne
  | shared => exact List.cons_ne_nil _ _
  | added => exact List.cons_ne_nil _ _

end Frame.Links

/-- Two places in step. -/
structure Place.Links (L : Licence) (fs : List Frame) (P P' : Place) : Prop where
  layers : Frame.Links L fs P.layers P'.layers
  inOperation : P'.inOperation = P.inOperation
  inObject : P'.inObject = P.inObject
  defining : P'.defining = P.defining.map (Frame.naming fs 0)
  /-- Only where the scope is there can a variable be in the middle of its definition. -/
  unless_added : ∀ x, P.defining = some x → ¬L.fresh x ∧ (Frame.here? fs).isSome

namespace Place.Links

variable {fs : List Frame} {P P' : Place}

theorem top (n n' : Nat) : Place.Links L [] (.top n) (.top n') := ⟨.nil, rfl, rfl, rfl, nofun⟩

theorem child (h : P.Links L fs P') (i j : Nat) : (P.child i).Links L fs (P'.child j) :=
  ⟨h.layers, h.inOperation, h.inObject, h.defining, h.unless_added⟩

theorem after (h : P.Links L fs P') {xs xs' : List String} (hd : Frame.Declares fs xs xs')
    (hx : ∀ x ∈ xs, ¬L.fresh x) : (P.after xs).Links L fs (P'.after xs') := by
  refine ⟨?_, h.inOperation, h.inObject, h.defining, h.unless_added⟩
  obtain ⟨_, _, layers, _, _, _⟩ := P
  obtain ⟨_, _, layers', _, _, _⟩ := P'
  obtain ⟨hlayers, -, -, -, -⟩ := h
  cases hlayers with
  | nil => exact .nil
  | shared hr hseen hlayer hlinks =>
    refine .shared hr (List.forall_mem_append.2 ⟨hseen, hx⟩) ?_ hlinks
    rw [hd.renamed, List.map_append, hlayer]
    rfl
  | @added _ _ layer' outer' hseen hlinks =>
    obtain rfl := hd.unless_added rfl
    obtain rfl : xs' = [] := hd.renamed
    rw [Place.after_nil, Place.after_nil]
    exact .added hseen hlinks

theorem enter (h : P.Links L fs P') {names : Equiv.Perm String} (hr : L.renames names)
    (hd : P.defining = none) (xs xs' : List String) :
    (P.enter xs).Links L (.shared names :: fs) (P'.enter xs') := by
  have hdefining := h.defining
  rw [hd] at hdefining
  refine ⟨.shared hr (List.forall_mem_nil _) rfl h.layers, h.inOperation, h.inObject, ?_,
    fun _ hx => absurd (hd.symm.trans hx) nofun⟩
  rw [show (P.enter xs).defining = none from hd]
  exact hdefining

theorem enter_added (h : P.Links L fs P') (hd : P.defining = none) (xs' : List String) :
    P.Links L (.added :: fs) (P'.enter xs') :=
  ⟨.added rfl h.layers, h.inOperation, h.inObject, h.defining,
    fun _ hx => absurd (hd.symm.trans hx) nofun⟩

theorem initializer (h : P.Links L fs P') {names : Equiv.Perm String}
    (hhere : Frame.here? fs = some names) {x : String} (hx : ¬L.fresh x) :
    (P.initializer x).Links L fs (P'.initializer (names x)) := by
  have hafter := h.after (.of_here hhere [x]) (List.forall_mem_singleton.2 hx)
  refine ⟨hafter.layers, h.inOperation, h.inObject, ?_, ?_⟩
  · exact (congrArg (fun names => some (names x)) (Frame.naming_zero hhere)).symm
  · rintro _ ⟨⟩
    exact ⟨hx, hhere ▸ rfl⟩

theorem operation (h : P.Links L fs P') {names : Equiv.Perm String} (hr : L.renames names)
    (hd : P.defining = none) (o o' : Operation) :
    (P.operation o).Links L (.shared names :: fs) (P'.operation o') := by
  have henter := h.enter hr hd o.locals o'.locals
  exact ⟨henter.layers, rfl, h.inObject, henter.defining, henter.unless_added⟩

theorem object (h : P.Links L fs P') (hd : P.defining = none) :
    P.object.Links L (.shared (Equiv.refl String) :: fs) P'.object := by
  have henter := h.enter L.renames_refl hd [selfName] [selfName]
  have hself : Frame.Declares (.shared (Equiv.refl String) :: fs) [selfName] [selfName] :=
    .of_fixed rfl fun _ _ => rfl
  have hafter := henter.after hself (List.forall_mem_singleton.2 L.self_used)
  exact ⟨hafter.layers, h.inOperation, rfl, hafter.defining, hafter.unless_added⟩

theorem distance?_eq (h : P.Links L fs P') {x : String} (hx : ¬L.fresh x) :
    P'.distance? (Frame.namingOf fs (P.distance? x) x) = (P.distance? x).map (Frame.shift fs) :=
  h.layers.distance?_eq hx

theorem ofSelf_eq (h : P.Links L fs P') :
    Numbering.ofSelf Place.distance? P' =
      (Numbering.ofSelf Place.distance? P).map (Frame.shift fs) := by
  rw [Numbering.ofSelf, Numbering.ofSelf, h.inObject]
  split
  · have hd := h.distance?_eq L.self_used
    rwa [L.self_eq _ (h.layers.licensed.namingOf _)] at hd
  · rfl

theorem isLocal (h : P.Links L fs P') (hl : P.isLocal) : P'.isLocal := by
  rw [Place.isLocal, Bool.not_eq_true', List.isEmpty_eq_false_iff] at hl ⊢
  exact h.layers.ne_nil hl

theorem isLocal_of_here (h : P.Links L fs P') (hhere : (Frame.here? fs).isSome)
    (hl : P'.isLocal) : P.isLocal := by
  obtain ⟨_, _, layers, _, _, _⟩ := P
  obtain ⟨_, _, layers', _, _, _⟩ := P'
  obtain ⟨hlayers, -, -, -, -⟩ := h
  cases hlayers with
  | nil => exact hl
  | shared => rfl
  | added => cases hhere

theorem declared (h : P.Links L fs P') {names : Equiv.Perm String}
    (hhere : Frame.here? fs = some names) {x : String} (hx : P'.Declared 0 (names x)) :
    P.Declared 0 x := by
  obtain ⟨_, _, layers, _, _, _⟩ := P
  obtain ⟨_, _, layers', _, _, _⟩ := P'
  obtain ⟨hlayers, -, -, -, -⟩ := h
  obtain ⟨found, hfound, hmem⟩ := hx
  cases hlayers with
  | nil => cases hfound
  | @shared _ _ layer layer' _ _ hr hseen hlayer hlinks =>
    obtain rfl := Option.some.inj hhere
    obtain rfl := Option.some.inj hfound
    rw [hlayer] at hmem
    obtain ⟨y, hy, heq⟩ := List.mem_map.1 hmem
    obtain rfl := Equiv.injective _ heq
    exact ⟨layer, rfl, hy⟩
  | added => cases hhere

end Place.Links

/-- What is visited is resolved, is no fault, and uses no fresh name. -/
structure Visit.Settled (L : Licence) (v : Visit) : Prop where
  annotated : v.item.annotate Place.distance? v.place = v.item
  fault : v.fault? = none
  reference : ∀ e x hops, v.item = .node (.expr e) → e.reference? = some (x, hops) → ¬L.fresh x
  declaration : ∀ name, v.item = .declaration name → ¬L.fresh name.text

theorem Visit.used_of_settled {vs : List Visit} (h : ∀ v ∈ vs, v.Settled L) {xs : List String}
    (hx : ∀ x ∈ xs, ∃ name Q, name.text = x ∧ ⟨.declaration name, Q⟩ ∈ vs) :
    ∀ x ∈ xs, ¬L.fresh x := by
  intro x hmem
  obtain ⟨name, Q, rfl, hv⟩ := hx x hmem
  exact (h _ hv).declaration name rfl

mutual

theorem Expr.parts_relabel (f : Label) (e : Expr) :
    (e.relabel f).parts = e.parts.map (·.relabel f) := by
  match e with
  | .hole | .literal .. | .variable .. | .self .. | .parent .. | .global .. => rfl
  | .assign _ value _ | .count _ value _ _ | .unary _ value | .group _ value | .get value _ =>
    simp only [Expr.relabel, Expr.parts, List.map_cons, Expr.parts_relabel f value]
  | .binary left _ right | .logical left _ right =>
    simp only [Expr.relabel, Expr.parts, List.map_cons, List.map_append,
      Expr.parts_relabel f left, Expr.parts_relabel f right]
  | .set object _ value =>
    simp only [Expr.relabel, Expr.parts, List.map_cons, List.map_append,
      Expr.parts_relabel f object, Expr.parts_relabel f value]
  | .call callee _ args =>
    simp only [Expr.relabel, Expr.parts, List.map_cons, List.map_append,
      Expr.parts_relabel f callee, Expr.partsOfList_relabel f args]

theorem Expr.partsOfList_relabel (f : Label) (es : List Expr) :
    Expr.partsOfList (Expr.relabelList f es) = (Expr.partsOfList es).map (·.relabel f) := by
  match es with
  | [] => rfl
  | e :: es =>
    simp only [Expr.relabelList, Expr.partsOfList, List.map_append, Expr.parts_relabel f e,
      Expr.partsOfList_relabel f es]

end

section

variable {fs : List Frame} {P P' : Place}

/-- At a settled node the label is the one that resolution gives in the revision. -/
theorem Expr.label_of_settled (hp : P.Links L fs P') {e : Expr} {x : String} {hops : Option Nat}
    (hs : Visit.Settled L ⟨.node (.expr e), P⟩) (he : e.reference? = some (x, hops))
    (hops_eq : hops = P.distance? x) :
    P'.distance? (Frame.label fs x hops).1 = (Frame.label fs x hops).2 := by
  subst hops_eq
  exact hp.distance?_eq (hs.reference e x _ rfl he)

mutual

theorem Expr.annotate_revise (hp : P.Links L fs P') (e : Expr)
    (h : ∀ part ∈ e.parts, Visit.Settled L ⟨.node (.expr part), P⟩) :
    (e.revise fs).annotate Place.distance? P' = e.revise fs := by
  match e with
  | .hole | .literal .. | .parent .. | .global .. => rfl
  | .variable name hops =>
    have hs := h _ (List.mem_singleton_self _)
    have hann := hs.annotated
    simp only [Item.annotate, Expr.annotate, Item.node.injEq, Node.expr.injEq,
      Expr.variable.injEq, true_and] at hann
    have hl := Expr.label_of_settled hp hs rfl hann.symm
    simp only [Expr.revise, Expr.relabel, Expr.annotate, Token.text_renamed, hl]
  | .self keyword hops =>
    have hann := (h _ (List.mem_singleton_self _)).annotated
    simp only [Item.annotate, Expr.annotate, Item.node.injEq, Node.expr.injEq,
      Expr.self.injEq, true_and] at hann
    simp only [Expr.revise, Expr.relabel, Expr.annotate, hp.ofSelf_eq, hann, Frame.label]
  | .assign name value hops =>
    simp only [Expr.parts, List.forall_mem_cons] at h
    have hann := h.1.annotated
    simp only [Item.annotate, Expr.annotate, Item.node.injEq, Node.expr.injEq,
      Expr.assign.injEq, true_and] at hann
    have hl := Expr.label_of_settled hp h.1 rfl hann.2.symm
    have hvalue := Expr.annotate_revise hp value h.2
    simp only [Expr.revise] at hvalue
    simp only [Expr.revise, Expr.relabel, Expr.annotate, Token.text_renamed, hl, hvalue]
  | .count _ target name hops =>
    simp only [Expr.parts, List.forall_mem_cons] at h
    have hann := h.1.annotated
    simp only [Item.annotate, Expr.annotate, Item.node.injEq, Node.expr.injEq,
      Expr.count.injEq, true_and] at hann
    have hl := Expr.label_of_settled hp h.1 rfl hann.2.symm
    have htarget := Expr.annotate_revise hp target h.2
    simp only [Expr.revise] at htarget
    simp only [Expr.revise, Expr.relabel, Expr.annotate, Token.text_renamed, hl, htarget]
  | .unary _ value | .group _ value | .get value _ =>
    simp only [Expr.parts, List.forall_mem_cons] at h
    have hvalue := Expr.annotate_revise hp value h.2
    simp only [Expr.revise] at hvalue
    simp only [Expr.revise, Expr.relabel, Expr.annotate, hvalue]
  | .binary left _ right | .logical left _ right =>
    simp only [Expr.parts, List.forall_mem_cons, List.forall_mem_append] at h
    have hleft := Expr.annotate_revise hp left h.2.1
    have hright := Expr.annotate_revise hp right h.2.2
    simp only [Expr.revise] at hleft hright
    simp only [Expr.revise, Expr.relabel, Expr.annotate, hleft, hright]
  | .set object _ value =>
    simp only [Expr.parts, List.forall_mem_cons, List.forall_mem_append] at h
    have hvalue := Expr.annotate_revise hp value h.2.1
    have hobject := Expr.annotate_revise hp object h.2.2
    simp only [Expr.revise] at hvalue hobject
    simp only [Expr.revise, Expr.relabel, Expr.annotate, hvalue, hobject]
  | .call callee _ args =>
    simp only [Expr.parts, List.forall_mem_cons, List.forall_mem_append] at h
    have hcallee := Expr.annotate_revise hp callee h.2.1
    simp only [Expr.revise] at hcallee
    simp only [Expr.revise, Expr.relabel, Expr.annotate, hcallee,
      Expr.annotateList_revise hp args h.2.2]

theorem Expr.annotateList_revise (hp : P.Links L fs P') (es : List Expr)
    (h : ∀ part ∈ Expr.partsOfList es, Visit.Settled L ⟨.node (.expr part), P⟩) :
    Expr.annotateList Place.distance? P' (Expr.relabelList (Frame.label fs) es) =
      Expr.relabelList (Frame.label fs) es := by
  match es with
  | [] => rfl
  | e :: es =>
    simp only [Expr.partsOfList, List.forall_mem_append] at h
    have he := Expr.annotate_revise hp e h.1
    simp only [Expr.revise] at he
    simp only [Expr.relabelList, Expr.annotateList, he, Expr.annotateList_revise hp es h.2]

end

theorem Expr.fault?_revise (hp : P.Links L fs P') {e : Expr}
    (h : Visit.Settled L ⟨.node (.expr e), P⟩) :
    Visit.fault? ⟨.node (.expr (e.revise fs)), P'⟩ = none := by
  have hfault := h.fault
  cases e with
  | «variable» name hops =>
    refine if_neg ?_
    rintro ⟨hlocal, hdefining⟩
    -- a variable that is being defined has its new name, so it is the one that is read
    rw [show P'.defining = _ from hp.defining] at hdefining
    obtain ⟨x, hx, heq⟩ := Option.map_eq_some_iff.1 hdefining
    obtain ⟨hused, hhere⟩ := hp.unless_added x hx
    have hname := L.apart (hp.layers.licensed.naming 0) (hp.layers.licensed.namingOf hops) hused
      (h.reference _ _ _ rfl rfl) heq
    simp [Visit.fault?, hp.isLocal_of_here hhere hlocal, hx, hname] at hfault
  | parent name =>
    have hl : P.isLocal := by
      by_contra hn
      simp [Visit.fault?, hn] at hfault
    exact if_pos (hp.isLocal hl)
  | self keyword hops =>
    have hobject : P.inObject := by
      by_contra hn
      simp [Visit.fault?, hn] at hfault
    exact if_pos (hp.inObject.trans hobject)
  | _ => rfl

theorem Expr.resolved_revise (hp : P.Links L fs P') {e : Expr}
    (h : ∀ v ∈ e.visits P, v.Settled L) :
    (e.revise fs).annotate Place.distance? P' = e.revise fs ∧
      ∀ v ∈ (e.revise fs).visits P', v.fault? = none := by
  have hpart : ∀ part ∈ e.parts, Visit.Settled L ⟨.node (.expr part), P⟩ :=
    fun part hmem => h _ (List.mem_map.2 ⟨part, hmem, rfl⟩)
  refine ⟨Expr.annotate_revise hp e hpart, fun v hv => ?_⟩
  obtain ⟨part', hmem', rfl⟩ := List.mem_map.1 hv
  rw [Expr.revise, Expr.parts_relabel] at hmem'
  obtain ⟨part, hmem, rfl⟩ := List.mem_map.1 hmem'
  exact Expr.fault?_revise hp (hpart part hmem)

theorem Expr.resolved_reviseOptional (hp : P.Links L fs P') {e? : Option Expr}
    (h : ∀ v ∈ Expr.visitsOptional P e?, v.Settled L) :
    (e?.map (·.revise fs)).map (·.annotate Place.distance? P') = e?.map (·.revise fs) ∧
      ∀ v ∈ Expr.visitsOptional P' (e?.map (·.revise fs)), v.fault? = none := by
  cases e? with
  | none => exact ⟨rfl, List.forall_mem_nil _⟩
  | some e =>
    obtain ⟨hann, hfault⟩ := Expr.resolved_revise hp (e := e) h
    exact ⟨congrArg some hann, hfault⟩

theorem Visit.fault?_declaration (hp : P.Links L fs P') {names : Equiv.Perm String}
    (hhere : Frame.here? fs = some names) {name : Token}
    (h : Visit.Settled L ⟨.declaration name, P⟩) :
    Visit.fault? ⟨.declaration (name.renamed names), P'⟩ = none := by
  refine if_neg fun hd => ?_
  have hdeclared := hp.declared hhere hd
  have hfault := h.fault
  simp [Visit.fault?, hdeclared] at hfault

theorem Visit.fault?_fixed (hp : P.Links L fs P') {names : Equiv.Perm String}
    (hhere : Frame.here? fs = some names) {name : Token} (hname : names name.text = name.text)
    (h : Visit.Settled L ⟨.declaration name, P⟩) : Visit.fault? ⟨.declaration name, P'⟩ = none := by
  have hfault := Visit.fault?_declaration hp hhere h
  rwa [Token.renamed_of_eq hname] at hfault

/-- Behind a declaration of a name that stays as it is. -/
theorem Place.Links.after_fixed (hp : P.Links L fs P') {names : Equiv.Perm String}
    (hhere : Frame.here? fs = some names) {name : Token} (hname : names name.text = name.text)
    (h : Visit.Settled L ⟨.declaration name, P⟩) :
    (P.after [name.text]).Links L fs (P'.after [name.text]) :=
  hp.after (.of_fixed hhere (List.forall_mem_singleton.2 hname))
    (List.forall_mem_singleton.2 (h.declaration name rfl))

theorem Definition.resolved_revise (hp : P.Links L fs P') {names : Equiv.Perm String}
    (hhere : Frame.here? fs = some names) {ds : List Definition}
    (hnames : ∀ d ∈ ds, names d.name.text = d.name.text)
    (h : ∀ v ∈ Definition.visitsOfMembers P ds, v.Settled L) :
    Definition.annotateMembers Place.distance? P' (ds.map (·.reviseInitial fs)) =
        ds.map (·.reviseInitial fs) ∧
      ∀ v ∈ Definition.visitsOfMembers P' (ds.map (·.reviseInitial fs)), v.fault? = none := by
  induction ds generalizing P P' with
  | nil => exact ⟨rfl, List.forall_mem_nil _⟩
  | cons d ds ih =>
    simp only [Definition.visitsOfMembers, List.cons_append, List.forall_mem_cons,
      List.forall_mem_append] at h
    obtain ⟨hname, hnames⟩ := List.forall_mem_cons.1 hnames
    obtain ⟨-, hinitial, hdecl, hrest⟩ := h
    obtain ⟨hann, hfault⟩ := Expr.resolved_reviseOptional hp hinitial
    obtain ⟨hanns, hfaults⟩ := ih (hp.after_fixed hhere hname hdecl) hnames hrest
    refine ⟨?_, ?_⟩
    · rw [List.map_cons, Definition.annotateMembers]
      refine congrArg₂ List.cons ?_ hanns
      exact congrArg (Definition.mk d.token d.name) hann
    · simp only [List.map_cons, Definition.visitsOfMembers, List.cons_append, List.forall_mem_cons,
        List.forall_mem_append]
      exact ⟨rfl, hfault, Visit.fault?_fixed hp hhere hname hdecl, hfaults⟩

theorem Token.fault?_params (hp : P.Links L fs P') {names : Equiv.Perm String}
    (hhere : Frame.here? fs = some names) {params : List Token}
    (h : ∀ v ∈ Token.visitsOfParams P params, v.Settled L) :
    (∀ v ∈ Token.visitsOfParams P' (params.map (·.renamed names)), v.fault? = none) ∧
      (P.after (params.map (·.text))).Links L fs
        (P'.after ((params.map (·.renamed names)).map (·.text))) := by
  induction params generalizing P P' with
  | nil =>
    refine ⟨List.forall_mem_nil _, ?_⟩
    rw [List.map_nil, List.map_nil, List.map_nil, Place.after_nil, Place.after_nil]
    exact hp
  | cons param params ih =>
    obtain ⟨hparam, hparams⟩ := List.forall_mem_cons.1 h
    have hafter := hp.after (.of_here hhere [param.text])
      (List.forall_mem_singleton.2 (hparam.declaration param rfl))
    obtain ⟨hfaults, hlinks⟩ := ih hafter hparams
    refine ⟨List.forall_mem_cons.2 ⟨Visit.fault?_declaration hp hhere hparam, hfaults⟩, ?_⟩
    rw [List.map_cons, List.map_cons, List.map_cons, Place.after_cons,
      Place.after_cons P']
    exact hlinks

end

-- The induction follows the text; the places move along with it.
mutual

theorem Stmt.resolved_of_alters {fs : List Frame} {P P' : Place} (hd : P.defining = none)
    (hp : P.Links L fs P') {s s' : Stmt} (h : s.Alters L fs s')
    (hv : ∀ v ∈ s.visits P, v.Settled L) :
    s'.annotate Place.distance? P' = s' ∧ ∀ v ∈ s'.visits P', v.fault? = none := by
  match s, s', h with
  | .hole, _, .hole => exact ⟨rfl, List.forall_mem_singleton.2 rfl⟩
  | .expression _ value, _, .expression _ =>
    simp only [Stmt.visits, List.forall_mem_cons] at hv ⊢
    obtain ⟨hann, hfault⟩ := Expr.resolved_revise hp hv.2
    exact ⟨by rw [Stmt.annotate, hann], rfl, hfault⟩
  | .print _ value, _, .print _ =>
    simp only [Stmt.visits, List.forall_mem_cons] at hv ⊢
    obtain ⟨hann, hfault⟩ := Expr.resolved_revise hp hv.2
    exact ⟨by rw [Stmt.annotate, hann], rfl, hfault⟩
  | .define ⟨_, name, initial⟩, _, .define hhere _ =>
    simp only [Stmt.visits, List.forall_mem_cons] at hv ⊢
    have hused := hv.2.1.declaration name rfl
    obtain ⟨hann, hfault⟩ := Expr.resolved_reviseOptional (hp.initializer hhere hused) hv.2.2
    refine ⟨?_, rfl, Visit.fault?_declaration hp hhere hv.2.1, hfault⟩
    rw [Stmt.annotate, Definition.annotate, Token.text_renamed, hann]
  | .block _ body, _, .block hr hb =>
    simp only [Stmt.visits, List.forall_mem_cons] at hv ⊢
    obtain ⟨hann, hfault⟩ := Stmt.resolved_of_revisesList (P := P.enter _) hd
      (hp.enter hr hd _ _) hb hv.2
    exact ⟨by rw [Stmt.annotate, hann], rfl, hfault⟩
  | .operation o, _, .operation hhere hname ho =>
    simp only [Stmt.visits, List.forall_mem_cons] at hv ⊢
    have hafter := hp.after_fixed hhere hname hv.2.1
    rw [Stmt.annotate, ho.name_eq]
    obtain ⟨hann, hfault⟩ := Operation.resolved_of_revises (P := P.after _) hd hafter ho hv.2.2
    exact ⟨by rw [hann], rfl, Visit.fault?_fixed hp hhere hname hv.2.1, hfault⟩
  | .conditional _ condition branch arms none, _, .conditional _ hb ha =>
    simp only [Stmt.visits, List.cons_append, List.forall_mem_cons, List.forall_mem_append] at hv ⊢
    obtain ⟨hcond, hcondFault⟩ := Expr.resolved_revise hp hv.2.1.1
    obtain ⟨hbranch, hbranchFault⟩ := Stmt.resolved_of_revises (P := P.child 0) hd (hp.child 0 0)
      hb hv.2.1.2
    have hused := Visit.used_of_settled hv.2.1.2 (Stmt.exists_declaration _ branch)
    have hafter := (hp.after (Stmt.declares_of_revises hb) hused).child 1 1
    obtain ⟨harms, harmsFault⟩ := Arm.resolved_of_revisesList (P := (P.after _).child 1) hd hafter
      ha hv.2.2
    exact ⟨by rw [Stmt.annotate, hcond, hbranch, harms], rfl, ⟨hcondFault, hbranchFault⟩,
      harmsFault⟩
  | .conditional _ condition branch arms (some last), _, .otherwise _ hb ha hl =>
    simp only [Stmt.visits, List.cons_append, List.forall_mem_cons, List.forall_mem_append] at hv ⊢
    obtain ⟨hcond, hcondFault⟩ := Expr.resolved_revise hp hv.2.1.1.1
    obtain ⟨hbranch, hbranchFault⟩ := Stmt.resolved_of_revises (P := P.child 0) hd (hp.child 0 0)
      hb hv.2.1.1.2
    have hused := Visit.used_of_settled hv.2.1.1.2 (Stmt.exists_declaration _ branch)
    have hafter := (hp.after (Stmt.declares_of_revises hb) hused).child 1 1
    obtain ⟨harms, harmsFault⟩ := Arm.resolved_of_revisesList (P := (P.after _).child 1) hd hafter
      ha hv.2.1.2
    have husedArms := Visit.used_of_settled hv.2.1.2 (Arm.exists_declarationOfList _ arms)
    have hlater := (hp.after ((Stmt.declares_of_revises hb).append (Arm.declaresList_of_revises ha))
      (List.forall_mem_append.2 ⟨hused, husedArms⟩)).child 2 2
    obtain ⟨hlast, hlastFault⟩ := Stmt.resolved_of_revises (P := (P.after _).child 2) hd hlater hl
      hv.2.2
    exact ⟨by rw [Stmt.annotate, hcond, hbranch, harms, hlast], rfl,
      ⟨⟨hcondFault, hbranchFault⟩, harmsFault⟩, hlastFault⟩
  | .arm a, _, .arm ha =>
    simp only [Stmt.visits, List.forall_mem_cons] at hv ⊢
    obtain ⟨hann, hfault⟩ := Arm.resolved_of_revises hd hp ha hv.2
    exact ⟨by rw [Stmt.annotate, hann], rfl, hfault⟩
  | .loop _ condition body, _, .loop _ hb =>
    simp only [Stmt.visits, List.cons_append, List.forall_mem_cons, List.forall_mem_append] at hv ⊢
    obtain ⟨hcond, hcondFault⟩ := Expr.resolved_revise hp hv.2.1
    obtain ⟨hbody, hbodyFault⟩ := Stmt.resolved_of_revises (P := P.child 0) hd (hp.child 0 0) hb
      hv.2.2
    exact ⟨by rw [Stmt.annotate, hcond, hbody], rfl, hcondFault, hbodyFault⟩
  | .return keyword value, _, .return _ =>
    simp only [Stmt.visits, List.forall_mem_cons] at hv ⊢
    obtain ⟨hann, hfault⟩ := Expr.resolved_reviseOptional hp hv.2
    refine ⟨by rw [Stmt.annotate, hann], ?_, hfault⟩
    have hreturn : P.inOperation := by
      by_contra hn
      have hf := hv.1.fault
      simp [Visit.fault?, hn] at hf
    exact if_pos (hp.inOperation.trans hreturn)
  | .object _ name methods, _, .object hhere hname hm =>
    simp only [Stmt.visits, List.forall_mem_cons] at hv ⊢
    have hafter := hp.after_fixed hhere hname hv.2.1
    obtain ⟨hann, hfault⟩ := Operation.resolved_of_revisesList (P := (P.after _).object) hd
      (hafter.object hd) hm hv.2.2
    exact ⟨by rw [Stmt.annotate, hann], rfl, Visit.fault?_fixed hp hhere hname hv.2.1, hfault⟩
  | .enum _ name _, _, .enum hhere hname =>
    simp only [Stmt.visits, List.forall_mem_cons] at hv ⊢
    exact ⟨rfl, rfl, Visit.fault?_fixed hp hhere hname hv.2.1, List.forall_mem_nil _⟩
  | .form _ name members, _, .form hhere hname hm =>
    simp only [Stmt.visits, List.forall_mem_cons] at hv ⊢
    have hafter := hp.after_fixed hhere hname hv.2.1
    obtain ⟨hann, hfault⟩ := Definition.resolved_revise hafter hhere (fun d hmem => (hm d hmem).1)
      hv.2.2
    exact ⟨by rw [Stmt.annotate, hann], rfl, Visit.fault?_fixed hp hhere hname hv.2.1, hfault⟩

theorem Stmt.resolved_of_revises {fs : List Frame} {P P' : Place} (hd : P.defining = none)
    (hp : P.Links L fs P') {s s' : Stmt} (h : s.Revises L fs s')
    (hv : ∀ v ∈ s.visits P, v.Settled L) :
    s'.annotate Place.distance? P' = s' ∧ ∀ v ∈ s'.visits P', v.fault? = none := by
  match s', h with
  | _, .plain ha => exact Stmt.resolved_of_alters hd hp ha hv
  | .block token [s'], .wrapped _ _ _ ha =>
    have hin : P.Links L (.added :: fs) ((P'.enter (Stmt.declaresList [s'])).child 0) :=
      { hp.enter_added hd _ with }
    obtain ⟨hann, hfault⟩ := Stmt.resolved_of_alters hd hin ha hv
    refine ⟨?_, ?_⟩
    · rw [Stmt.annotate, Stmt.annotateList, hann]
      rfl
    · simp only [Stmt.visits, Stmt.visitsOfList, List.forall_mem_cons, List.append_nil]
      exact ⟨rfl, hfault⟩

theorem Stmt.resolved_of_revisesList {fs : List Frame} {P P' : Place} (hd : P.defining = none)
    (hp : P.Links L fs P') {ss ss' : List Stmt} (h : Stmt.RevisesList L fs ss ss')
    (hv : ∀ v ∈ Stmt.visitsOfList P ss, v.Settled L) :
    Stmt.annotateList Place.distance? P' ss' = ss' ∧
      ∀ v ∈ Stmt.visitsOfList P' ss', v.fault? = none := by
  match ss, ss', h with
  | [], _, .nil => exact ⟨rfl, List.forall_mem_nil _⟩
  | s :: ss, s' :: ss', .cons hs hss =>
    simp only [Stmt.visitsOfList, List.forall_mem_append] at hv ⊢
    obtain ⟨hann, hfault⟩ := Stmt.resolved_of_revises (P := P.child 0) hd (hp.child 0 0) hs hv.1
    have hused := Visit.used_of_settled hv.1 (Stmt.exists_declaration _ s)
    have hafter := (hp.after (Stmt.declares_of_revises hs) hused).child 1 1
    obtain ⟨hanns, hfaults⟩ := Stmt.resolved_of_revisesList (P := (P.after _).child 1) hd hafter
      hss hv.2
    exact ⟨by rw [Stmt.annotateList, hann, hanns], hfault, hfaults⟩

theorem Operation.resolved_of_revises {fs : List Frame} {P P' : Place} (hd : P.defining = none)
    (hp : P.Links L fs P') {o o' : Operation} (h : o.Revises L fs o')
    (hv : ∀ v ∈ o.visits P, v.Settled L) :
    o'.annotate Place.distance? P' = o' ∧ ∀ v ∈ o'.visits P', v.fault? = none := by
  match o, o', h with
  | ⟨token, name, params, body⟩, _, @Operation.Revises.mk _ _ _ _ _ _ body' names hr hb =>
    simp only [Operation.visits, List.forall_mem_append] at hv ⊢
    obtain ⟨hparams, hafter⟩ := Token.fault?_params (hp.operation hr hd _
      ⟨token, name, params.map (·.renamed names), body'⟩) rfl hv.1
    obtain ⟨hann, hfault⟩ := Stmt.resolved_of_revisesList (P := (P.operation _).after _) hd hafter
      hb hv.2
    exact ⟨by rw [Operation.annotate, hann], hparams, hfault⟩

theorem Operation.resolved_of_revisesList {fs : List Frame} {P P' : Place}
    (hd : P.defining = none) (hp : P.Links L fs P') {os os' : List Operation}
    (h : Operation.RevisesList L fs os os') (hv : ∀ v ∈ Operation.visitsOfList P os, v.Settled L) :
    Operation.annotateList Place.distance? P' os' = os' ∧
      ∀ v ∈ Operation.visitsOfList P' os', v.fault? = none := by
  match os, os', h with
  | [], _, .nil => exact ⟨rfl, List.forall_mem_nil _⟩
  | o :: os, o' :: os', .cons ho hos =>
    simp only [Operation.visitsOfList, List.cons_append, List.forall_mem_cons,
      List.forall_mem_append] at hv ⊢
    obtain ⟨hann, hfault⟩ := Operation.resolved_of_revises (P := P.child 0) hd (hp.child 0 0) ho
      hv.2.1
    obtain ⟨hanns, hfaults⟩ := Operation.resolved_of_revisesList (P := P.child 1) hd (hp.child 1 1)
      hos hv.2.2
    exact ⟨by rw [Operation.annotateList, hann, hanns], rfl, hfault, hfaults⟩

theorem Arm.resolved_of_revises {fs : List Frame} {P P' : Place} (hd : P.defining = none)
    (hp : P.Links L fs P') {a a' : Arm} (h : a.Revises L fs a')
    (hv : ∀ v ∈ a.visits P, v.Settled L) :
    a'.annotate Place.distance? P' = a' ∧ ∀ v ∈ a'.visits P', v.fault? = none := by
  match a, a', h with
  | ⟨_, condition, branch⟩, ⟨_, _, branch'⟩, .mk _ hb =>
    simp only [Arm.visits, List.forall_mem_append] at hv ⊢
    obtain ⟨hcond, hcondFault⟩ := Expr.resolved_revise hp hv.1
    obtain ⟨hbranch, hbranchFault⟩ := Stmt.resolved_of_revises hd hp hb hv.2
    exact ⟨by rw [Arm.annotate, hcond, hbranch], hcondFault, hbranchFault⟩

theorem Arm.resolved_of_revisesList {fs : List Frame} {P P' : Place} (hd : P.defining = none)
    (hp : P.Links L fs P') {as as' : List Arm} (h : Arm.RevisesList L fs as as')
    (hv : ∀ v ∈ Arm.visitsOfList P as, v.Settled L) :
    Arm.annotateList Place.distance? P' as' = as' ∧
      ∀ v ∈ Arm.visitsOfList P' as', v.fault? = none := by
  match as, as', h with
  | [], _, .nil => exact ⟨rfl, List.forall_mem_nil _⟩
  | a :: rest, a' :: rest', .cons ha hrest =>
    simp only [Arm.visitsOfList, List.cons_append, List.forall_mem_cons,
      List.forall_mem_append] at hv ⊢
    obtain ⟨hann, hfault⟩ := Arm.resolved_of_revises (P := P.child 0) hd (hp.child 0 0) ha hv.2.1
    have hused := Visit.used_of_settled hv.2.1 (Arm.exists_declaration _ a)
    have hafter := (hp.after (Arm.declares_of_revises ha) hused).child 1 1
    obtain ⟨hanns, hfaults⟩ := Arm.resolved_of_revisesList (P := (P.after _).child 1) hd hafter
      hrest hv.2.2
    exact ⟨by rw [Arm.annotateList, hann, hanns], rfl, hfault, hfaults⟩

end

/-- A revision of a resolved program without faults is resolved and without faults. -/
theorem Program.resolve_of_revises {p p' : Program} (h : Stmt.RevisesList L [] p p')
    (hv : ∀ v ∈ p.visits 0, v.Settled L) : p'.resolve = ⟨p', []⟩ := by
  obtain ⟨hann, hfault⟩ := Stmt.resolved_of_revisesList rfl (.top 0 0) h hv
  have hnone : Visit.diagnostics (p'.visits 0) = [] := by
    refine List.filterMap_eq_nil_iff.2 fun v hmem => ?_
    rw [hfault v hmem]
    rfl
  rw [p'.resolve_eq 0, hnone, show p'.annotated 0 = p' from hann]

end Treescript
