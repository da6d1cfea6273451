import Mathlib.Data.List.Nodup
import Treescript.Proofs.Places

/-!
# Local scopes of a text

Which visited items open a local scope, and that the path of a region tells the local scopes of a
program apart: no two items open regions with the same path, and every region around a visit is
opened by some item.
-/

namespace Treescript

/-- The local scope that an item opens. -/
def Visit.opens? (v : Visit) : Option Region :=
  match v.item with
  | .node (.stmt (.block _ body)) =>
    some ⟨v.place.program, v.place.path, Stmt.declaresList body⟩
  | .node (.stmt (.operation o)) | .method o => some ⟨v.place.program, v.place.path, o.locals⟩
  | .node (.stmt (.object ..)) => some ⟨v.place.program, v.place.path, [selfName]⟩
  | _ => none

def Visit.openings (vs : List Visit) : List Region := vs.filterMap Visit.opens?

/-- The paths of the regions opened are different and satisfy a condition, and the regions around
the visits are given ones or opened. -/
structure Visit.Tidy (regions : List Region) (W : List Nat → Prop) (vs : List Visit) : Prop where
  nodup : ((Visit.openings vs).map (·.path)).Nodup
  paths : ∀ r ∈ Visit.openings vs, W r.path
  around : ∀ v ∈ vs, ∀ r ∈ v.place.regions, r ∈ regions ∨ r ∈ Visit.openings vs

namespace Visit.Tidy

variable {R : List Region} {W W' : List Nat → Prop} {vs ws : List Visit}

theorem nil : Tidy R W [] :=
  ⟨List.nodup_nil, List.forall_mem_nil _, List.forall_mem_nil _⟩

theorem imp (h : Tidy R W vs) (hw : ∀ q, W q → W' q) : Tidy R W' vs :=
  ⟨h.nodup, fun r hr => hw r.path (h.paths r hr), h.around⟩

theorem append (h : Tidy R W vs) (h' : Tidy R W' ws) (hd : ∀ q, W q → ¬W' q) :
    Tidy R (fun q => W q ∨ W' q) (vs ++ ws) := by
  have hopen : openings (vs ++ ws) = openings vs ++ openings ws := List.filterMap_append
  refine ⟨?_, ?_, ?_⟩
  · rw [hopen, List.map_append]
    refine h.nodup.append h'.nodup fun q hq hq' => ?_
    obtain ⟨r, hr, rfl⟩ := List.mem_map.1 hq
    obtain ⟨r', hr', heq⟩ := List.mem_map.1 hq'
    exact hd r.path (h.paths r hr) (heq ▸ h'.paths r' hr')
  · rw [hopen, List.forall_mem_append]
    exact ⟨fun r hr => .inl (h.paths r hr), fun r hr => .inr (h'.paths r hr)⟩
  · rw [hopen, List.forall_mem_append]
    refine ⟨fun v hv r hr => ?_, fun v hv r hr => ?_⟩
    · exact (h.around v hv r hr).imp_right (List.mem_append_left _)
    · exact (h'.around v hv r hr).imp_right (List.mem_append_right _)

theorem pass {v : Visit} (h : Tidy R W vs) (hv : v.opens? = none) (hr : v.place.regions ⊆ R) :
    Tidy R W (v :: vs) := by
  have hopen : openings (v :: vs) = openings vs := List.filterMap_cons_none hv
  refine ⟨hopen ▸ h.nodup, hopen ▸ h.paths, ?_⟩
  rw [hopen, List.forall_mem_cons]
  exact ⟨fun r hr' => .inl (hr hr'), h.around⟩

theorem of_closed (hv : ∀ v ∈ vs, v.opens? = none ∧ v.place.regions = R) : Tidy R W vs := by
  induction vs with
  | nil => exact nil
  | cons v vs ih =>
    rw [List.forall_mem_cons] at hv
    exact (ih hv.2).pass hv.1.1 (hv.1.2 ▸ List.Subset.refl _)

theorem opened {v : Visit} {region : Region} (h : Tidy (region :: R) W vs)
    (hv : v.opens? = some region) (hr : v.place.regions = R)
    (hw : ∀ q, W q → region.path <:+ q ∧ q ≠ region.path) :
    Tidy R (region.path <:+ ·) (v :: vs) := by
  have hopen : openings (v :: vs) = region :: openings vs := List.filterMap_cons_some hv
  refine ⟨?_, ?_, ?_⟩
  · rw [hopen, List.map_cons, List.nodup_cons]
    refine ⟨fun hmem => ?_, h.nodup⟩
    obtain ⟨r, hr, heq⟩ := List.mem_map.1 hmem
    exact (hw r.path (h.paths r hr)).2 heq
  · rw [hopen, List.forall_mem_cons]
    exact ⟨List.suffix_refl _, fun r hr => (hw r.path (h.paths r hr)).1⟩
  · rw [hopen, List.forall_mem_cons]
    refine ⟨fun r hr' => .inl (hr ▸ hr'), fun v hv r hr => ?_⟩
    rcases h.around v hv r hr with hr | hr
    · rcases List.mem_cons.1 hr with rfl | hr
      · exact .inr List.mem_cons_self
      · exact .inl hr
    · exact .inr (List.mem_cons_of_mem _ hr)

end Visit.Tidy

/-- The first or the second child of a path, or something below. -/
def Below (path q : List Nat) : Prop := (0 :: path) <:+ q ∨ (1 :: path) <:+ q

theorem not_suffix_of_suffix {path q : List Nat} {i j : Nat} (h : (i :: path) <:+ q)
    (hij : i ≠ j) : ¬(j :: path) <:+ q := by
  intro h'
  rw [List.suffix_iff_eq_drop, List.length_cons] at h h'
  exact hij (List.cons.inj (h.trans h'.symm)).1

theorem suffix_of_cons_suffix {path q : List Nat} {i : Nat} (h : (i :: path) <:+ q) : path <:+ q :=
  (List.suffix_cons i path).trans h

theorem Below.suffix {path q : List Nat} (h : Below path q) : path <:+ q ∧ q ≠ path := by
  have hlen : ∀ i, (i :: path) <:+ q → path <:+ q ∧ q ≠ path := by
    intro i hi
    refine ⟨suffix_of_cons_suffix hi, fun heq => ?_⟩
    have hle := hi.length_le
    rw [heq, List.length_cons] at hle
    omega
  exact h.elim (hlen 0) (hlen 1)

/-- Visits that open nothing, with the same local scopes around as a place. -/
def Visit.Closed (P : Place) (vs : List Visit) : Prop :=
  ∀ v ∈ vs, v.opens? = none ∧ v.place.regions = P.regions

theorem Expr.closed_visits (P : Place) (e : Expr) : Visit.Closed P (e.visits P) := by
  intro v hv
  obtain ⟨part, -, rfl⟩ := List.mem_map.1 hv
  exact ⟨rfl, rfl⟩

theorem Expr.closed_visitsOptional (P : Place) (e? : Option Expr) :
    Visit.Closed P (Expr.visitsOptional P e?) := by
  cases e? with
  | none => exact List.forall_mem_nil _
  | some e => exact e.closed_visits P

theorem Visit.Closed.of_after {P : Place} {names : List String} {vs : List Visit}
    (h : Visit.Closed (P.after names) vs) : Visit.Closed P vs := by
  rwa [Visit.Closed, Place.regions_after] at h

theorem Token.closed_visitsOfParams (P : Place) (params : List Token) :
    Visit.Closed P (Token.visitsOfParams P params) := by
  induction params generalizing P with
  | nil => exact List.forall_mem_nil _
  | cons param params ih => exact List.forall_mem_cons.2 ⟨⟨rfl, rfl⟩, (ih _).of_after⟩

theorem Definition.closed_visitsOfMembers (P : Place) (ds : List Definition) :
    Visit.Closed P (Definition.visitsOfMembers P ds) := by
  induction ds generalizing P with
  | nil => exact List.forall_mem_nil _
  | cons d rest ih =>
    exact List.forall_mem_append.2
      ⟨List.forall_mem_cons.2 ⟨⟨rfl, rfl⟩, Expr.closed_visitsOptional P d.initial⟩,
        List.forall_mem_cons.2 ⟨⟨rfl, rfl⟩, (ih _).of_after⟩⟩

namespace Visit.Tidy

variable {P : Place} {W : List Nat → Prop} {vs ws : List Visit} {i : Nat}

theorem after_closed (hc : Closed P vs) (h : Tidy P.regions W ws) :
    Tidy P.regions W (vs ++ ws) := by
  refine ((of_closed (W := fun _ => False) hc).append h fun _ hf => hf.elim).imp fun q hq => ?_
  exact hq.resolve_left id

theorem of_regions {Q : Place} (h : Tidy Q.regions W vs) (hq : Q.regions = P.regions) :
    Tidy P.regions W vs := hq ▸ h

end Visit.Tidy

open Visit (Tidy)

mutual

theorem Stmt.tidy_visits (P : Place) (s : Stmt) :
    Tidy P.regions (P.path <:+ ·) (s.visits P) := by
  match s with
  | .hole => exact Tidy.nil.pass rfl (List.Subset.refl _)
  | .expression _ value | .print _ value =>
    exact (Tidy.of_closed (value.closed_visits P)).pass rfl (List.Subset.refl _)
  | .define d =>
    have hinit := Expr.closed_visitsOptional (P.initializer d.name.text) d.initial
    have hvisits := (Tidy.of_closed (W := (P.path <:+ ·)) hinit).of_regions (P := P)
      (P.regions_after [d.name.text])
    exact (hvisits.pass rfl (List.Subset.refl _)).pass rfl (List.Subset.refl _)
  | .block _ body =>
    have hbody := Stmt.tidy_visitsOfList (P.enter (Stmt.declaresList body)) body
    exact hbody.opened rfl rfl fun _ => Below.suffix
  | .operation o =>
    have ho := Operation.tidy_visits (P.after [o.name.text]) o
    rw [Place.regions_after] at ho
    have hinside := ho.pass (v := ⟨.declaration o.name, P⟩) rfl (List.subset_cons_self _ _)
    exact hinside.opened rfl rfl fun _ => Below.suffix
  | .conditional token condition branch arms none =>
    -- the branches lie below different children, so no path below one is below another
    have hbranch := Stmt.tidy_visits (P.child 0) branch
    have harms := (Arm.tidy_visitsOfList ((P.after branch.declares).child 1) arms).of_regions
      (P := P) (P.regions_after branch.declares)
    have hboth := hbranch.append (harms.imp fun q hq => hq.suffix.1)
      fun q hq => not_suffix_of_suffix hq nofun
    have hall := hboth.after_closed (condition.closed_visits P)
    rw [Stmt.visits, List.cons_append, List.cons_append, List.append_assoc]
    exact (hall.imp fun q hq => hq.elim suffix_of_cons_suffix suffix_of_cons_suffix).pass rfl
      (List.Subset.refl _)
  | .conditional token condition branch arms (some otherwise) =>
    have hbranch := Stmt.tidy_visits (P.child 0) branch
    have harms := (Arm.tidy_visitsOfList ((P.after branch.declares).child 1) arms).of_regions
      (P := P) (P.regions_after branch.declares)
    have hlast := (Stmt.tidy_visits
      ((P.after (branch.declares ++ Arm.declaresList arms)).child 2) otherwise).of_regions
      (P := P) (P.regions_after _)
    have hboth := hbranch.append (harms.imp fun q hq => hq.suffix.1)
      fun q hq => not_suffix_of_suffix hq nofun
    have hthree := hboth.append hlast fun q hq => hq.elim
      (fun h => not_suffix_of_suffix h nofun) (fun h => not_suffix_of_suffix h nofun)
    have hall := hthree.after_closed (condition.closed_visits P)
    rw [Stmt.visits, List.cons_append, List.cons_append, List.cons_append, List.append_assoc,
      List.append_assoc, ← List.append_assoc (Stmt.visits _ _)]
    refine (hall.imp fun q hq => ?_).pass rfl (List.Subset.refl _)
    rcases hq with (hq | hq) | hq <;> exact suffix_of_cons_suffix hq
  | .arm a => exact (Arm.tidy_visits P a).pass rfl (List.Subset.refl _)
  | .loop _ condition body =>
    have hbody := (Stmt.tidy_visits (P.child 0) body).imp fun q hq => suffix_of_cons_suffix hq
    exact (hbody.after_closed (condition.closed_visits P)).pass rfl (List.Subset.refl _)
  | .return _ value =>
    exact (Tidy.of_closed (Expr.closed_visitsOptional P value)).pass rfl (List.Subset.refl _)
  | .object _ name methods =>
    have hmethods := Operation.tidy_visitsOfList (P.after [name.text]).object methods
    have hregions : (P.after [name.text]).object.regions =
        ⟨P.program, P.path, [selfName]⟩ :: P.regions :=
      congrArg (_ :: ·) (P.regions_after [name.text])
    rw [hregions] at hmethods
    have hinside := hmethods.pass (v := ⟨.declaration name, P⟩) rfl (List.subset_cons_self _ _)
    exact hinside.opened rfl rfl fun _ => Below.suffix
  | .enum .. =>
    refine .of_closed (List.forall_mem_cons.2 ⟨⟨rfl, rfl⟩, ?_⟩)
    exact List.forall_mem_singleton.2 ⟨rfl, rfl⟩
  | .form _ name members =>
    have hmembers := (Definition.closed_visitsOfMembers (P.after [name.text]) members).of_after
    exact ((Tidy.of_closed hmembers).pass rfl (List.Subset.refl _)).pass rfl (List.Subset.refl _)

theorem Stmt.tidy_visitsOfList (P : Place) (ss : List Stmt) :
    Tidy P.regions (Below P.path) (Stmt.visitsOfList P ss) := by
  match ss with
  | [] => exact .nil
  | s :: ss =>
    have hrest := (Stmt.tidy_visitsOfList ((P.after s.declares).child 1) ss).of_regions
      (P := P) (P.regions_after s.declares)
    exact (Stmt.tidy_visits (P.child 0) s).append (hrest.imp fun q hq => hq.suffix.1)
      fun q hq => not_suffix_of_suffix hq nofun

theorem Operation.tidy_visits (P : Place) (o : Operation) :
    Tidy (⟨P.program, P.path, o.locals⟩ :: P.regions) (Below P.path) (o.visits P) := by
  match o with
  | ⟨token, name, params, body⟩ =>
    have hbody := (Stmt.tidy_visitsOfList ((P.operation ⟨token, name, params, body⟩).after
      (params.map (·.text))) body).of_regions (P := P.operation ⟨token, name, params, body⟩)
      (Place.regions_after _ _)
    exact hbody.after_closed (Token.closed_visitsOfParams _ params)

theorem Operation.tidy_visitsOfList (P : Place) (os : List Operation) :
    Tidy P.regions (Below P.path) (Operation.visitsOfList P os) := by
  match os with
  | [] => exact .nil
  | o :: os =>
    have hfirst := (Operation.tidy_visits (P.child 0) o).opened
      (v := ⟨.method o, P.child 0⟩) rfl rfl fun _ => Below.suffix
    have hrest := Operation.tidy_visitsOfList (P.child 1) os
    exact hfirst.append (hrest.imp fun q hq => hq.suffix.1)
      fun q hq => not_suffix_of_suffix hq nofun

theorem Arm.tidy_visits (P : Place) (a : Arm) :
    Tidy P.regions (P.path <:+ ·) (a.visits P) := by
  match a with
  | ⟨_, condition, branch⟩ =>
    exact (Stmt.tidy_visits P branch).after_closed (condition.closed_visits P)

theorem Arm.tidy_visitsOfList (P : Place) (as : List Arm) :
    Tidy P.regions (Below P.path) (Arm.visitsOfList P as) := by
  match as with
  | [] => exact .nil
  | a :: rest =>
    have hfirst := (Arm.tidy_visits (P.child 0) a).pass (v := ⟨.node (.stmt (.arm a)), P.child 0⟩)
      rfl (List.Subset.refl _)
    have hrest := (Arm.tidy_visitsOfList ((P.after a.declares).child 1) rest).of_regions
      (P := P) (P.regions_after a.declares)
    exact hfirst.append (hrest.imp fun q hq => hq.suffix.1)
      fun q hq => not_suffix_of_suffix hq nofun

end

theorem Visit.mem_openings {vs : List Visit} {region : Region} :
    region ∈ Visit.openings vs ↔ ∃ k : Nat, vs[k]?.bind Visit.opens? = some region := by
  constructor
  · intro hr
    obtain ⟨v, hv, hopen⟩ := List.mem_filterMap.1 hr
    obtain ⟨k, hk⟩ := List.mem_iff_getElem?.1 hv
    exact ⟨k, Option.bind_eq_some_iff.2 ⟨v, hk, hopen⟩⟩
  · rintro ⟨k, hk⟩
    obtain ⟨v, hv, hopen⟩ := Option.bind_eq_some_iff.1 hk
    exact List.mem_filterMap.2 ⟨v, List.mem_of_getElem? hv, hopen⟩

theorem Visit.opens_unique {vs : List Visit} (h : ((Visit.openings vs).map (·.path)).Nodup)
    {j k : Nat} {region : Region} (hj : vs[j]?.bind Visit.opens? = some region)
    (hk : vs[k]?.bind Visit.opens? = some region) : j = k := by
  induction vs generalizing j k with
  | nil => simp at hj
  | cons v vs ih =>
    have hfirst : ∀ n : Nat, v.opens? = some region → vs[n]?.bind Visit.opens? ≠ some region := by
      intro n hv hn
      rw [Visit.openings, List.filterMap_cons_some hv, List.map_cons, List.nodup_cons] at h
      exact h.1 (List.mem_map_of_mem (Visit.mem_openings.2 ⟨n, hn⟩))
    have hrest : ((Visit.openings vs).map (·.path)).Nodup := by
      refine h.sublist (List.Sublist.map _ ?_)
      exact (List.sublist_cons_self v vs).filterMap _
    match j, k with
    | 0, 0 => rfl
    | 0, k + 1 => exact absurd hk (hfirst k hj)
    | j + 1, 0 => exact absurd hj (hfirst j hk)
    | j + 1, k + 1 => exact congrArg (· + 1) (ih hrest hj hk)

/-- Every local scope around a visit is opened by exactly one of the items. -/
theorem Program.existsUnique_opens (program : Nat) (p : Program) {v : Visit}
    (hv : v ∈ p.visits program) {region : Region} (hr : region ∈ v.place.regions) :
    ∃! k : Nat, (p.visits program)[k]?.bind Visit.opens? = some region := by
  have htidy := Stmt.tidy_visitsOfList (.top program) p
  obtain hr | hr := htidy.around v hv region hr
  · exact absurd hr List.not_mem_nil
  · obtain ⟨k, hk⟩ := Visit.mem_openings.1 hr
    exact ⟨k, hk, fun j hj => Visit.opens_unique htidy.nodup hj hk⟩

end Treescript
