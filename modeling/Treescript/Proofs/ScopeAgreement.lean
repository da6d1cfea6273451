import Treescript.Proofs.Encounters
import Treescript.Proofs.LexicalDistance
import Treescript.Proofs.Regions
import Treescript.Proofs.WatchedSessions

/-!
# Scopes of the text and scopes of the run

Resolution counts symbol scopes while it walks over a text, evaluation counts scopes while it runs.
At every moment of a session the two counts are of the same things: the scopes between the current
one and the globals are activations of the symbol scopes that were open when the walk came to the
node, one for one. So the hops of a reference lead to an activation of the scope in which resolution
found the name.
-/

namespace Treescript

/-- The scopes at a moment are activations of the scopes that the walk had open. -/
structure Encounter.Mirrors (c : Encounter) (x : Moment) : Prop where
  chain : x.state.machine.store.scopes.ancestor? c.symbols.length x.state.machine.current =
    some x.state.machine.globals
  root : x.state.machine.store.scopes.outer? x.state.machine.globals = none
  locals : ∀ k < c.symbols.length, ∃ scope region outer,
    x.state.machine.store.scopes.ancestor? k x.state.machine.current = some scope ∧
    scope ≠ x.state.machine.globals ∧
    x.place.regions.drop k = region :: outer ∧ x.state.regions scope = region :: outer ∧
    ∀ name, (x.state.machine.store.scopes.get? scope name).isSome → name ∈ region.names
  references : ∀ e D, x.sight.seen = .expr e → e.hops? = some D → ∃ name scope,
    e.refersTo? x.place = some name ∧ c.symbols.hops? name = some D ∧ D < c.symbols.length ∧
    x.state.machine.store.scopes.ancestor? D x.state.machine.current = some scope ∧
    scope ≠ x.state.machine.globals ∧ x.state.regions scope = x.place.regions.drop D

theorem Place.lt_length_of_distance? {P : Place} {x : String} {D : Nat}
    (h : P.distance? x = some D) : D < P.layers.length := by
  obtain ⟨⟨layer, hl, -⟩, -⟩ := Place.distance?_eq_some_iff.1 h
  exact (List.getElem?_eq_some_iff.1 hl).1

variable {T : Texts} {x : Moment}

namespace Moment.Agrees

/-- The scope a number of hops out is an activation of the local scope as far out in the text. -/
theorem ancestor (h : x.Agrees T) {k : Nat} (hk : k ≤ x.place.regions.length) :
    ∃ a, x.state.machine.store.scopes.ancestor? k x.state.machine.current = some a ∧
      a < x.state.world.scopes.size ∧ x.state.regions a = x.place.regions.drop k := by
  have hregions : x.state.world.regions x.state.machine.current = x.place.regions :=
    h.occupies.1.2.1
  rw [← hregions] at hk ⊢
  exact h.sound.ancestor h.occupies.1.1 hk

theorem local_ancestor (h : x.Agrees T) {k : Nat} (hk : k < x.place.regions.length) :
    ∃ a, x.state.machine.store.scopes.ancestor? k x.state.machine.current = some a ∧
      a ≠ x.state.machine.globals ∧ a < x.state.world.scopes.size ∧
      x.state.regions a = x.place.regions.drop k := by
  obtain ⟨a, ha, hlt, hr⟩ := h.ancestor hk.le
  refine ⟨a, ha, fun heq => ?_, hlt, hr⟩
  have hnil : x.state.regions a = [] := (h.sound.eq_globals_iff hlt).1 heq
  rw [hnil, eq_comm, List.drop_eq_nil_iff] at hr
  omega

theorem mirrors (h : x.Agrees T) {c : Encounter} (hc : c.symbols.Fits x.place)
    (hhops : ∀ e, x.sight.seen = .expr e →
      e.hops? = (e.refersTo? x.place).bind x.place.distance?) : c.Mirrors x := by
  have hlen : c.symbols.length = x.place.regions.length := by
    rw [hc.length_eq, Place.regions, List.length_map]
  refine ⟨?_, h.sound.globals_outer, ?_, ?_⟩
  · obtain ⟨a, ha, hlt, hr⟩ := h.ancestor hlen.le
    rw [hlen, List.drop_length] at hr
    rw [ha, (h.sound.eq_globals_iff hlt).2 hr]
    rfl
  · intro k hk
    obtain ⟨a, ha, hne, hlt, hr⟩ := h.local_ancestor (hlen ▸ hk)
    obtain ⟨region, o, -, hcons, hnames⟩ := h.sound.inner a hlt hne
    exact ⟨a, region, _, ha, hne, hr.symm.trans hcons, hcons, hnames⟩
  · intro e D he hD
    rw [hhops e he] at hD
    obtain ⟨name, hname, hdist⟩ := Option.bind_eq_some_iff.1 hD
    have hD_lt : D < x.place.regions.length := by
      rw [Place.regions, List.length_map]
      exact Place.lt_length_of_distance? hdist
    obtain ⟨a, ha, hne, -, hr⟩ := h.local_ancestor hD_lt
    exact ⟨name, a, hname, (hc.hops?_eq name).trans hdist, hlen ▸ hD_lt, ha, hne, hr⟩

end Moment.Agrees

/-- The encounter that belongs to a visit of the program after resolution. -/
theorem Program.exists_encounter {program k : Nat} {p : Program} {item : Item} {P : Place}
    (h : (p.resolve.program.visits program)[k]? = some ⟨item, P⟩) :
    ∃ c, p.encounters[k]? = some c ∧ c.item.annotate Place.distance? P = item ∧
      c.symbols.Fits P := by
  rw [Program.visits_resolve, List.getElem?_map, Option.map_eq_some_iff] at h
  obtain ⟨v, hv, hann⟩ := h
  obtain ⟨hitem, rfl⟩ := Visit.mk.inj hann
  have hmeet := p.encounters_meet program
  obtain ⟨hk, hget⟩ := List.getElem?_eq_some_iff.1 hv
  have hk' : k < p.encounters.length := hmeet.length_eq ▸ hk
  have hfit := hmeet.get hk' hk
  rw [List.get_eq_getElem, List.get_eq_getElem, hget] at hfit
  refine ⟨p.encounters[k], List.getElem?_eq_getElem hk', ?_, hfit.symbols⟩
  rw [hfit.item]
  exact hitem

namespace Observed

/-- In every session of programs, with or without faults, and at every moment of its run: the node
is one that the walk of resolution came to, and the scopes from the current one to the globals are
activations of the symbol scopes that the walk had open there. What is watched is the session
itself, and a local scope is known by its region. -/
theorem session_scopes_agree (clock : Clock) (modules : List Module)
    (programs : List (Nat × Program)) :
    (session clock modules programs).state.machine =
      (Machine.start clock (modules.flatMap Module.entries)).interpretAll programs ∧
    ∀ x ∈ (session clock modules programs).past,
      ∃ (entry : Nat × Program) (k : Nat) (c : Encounter),
      programs[x.place.program]? = some entry ∧
      (entry.2.resolve.program.visits x.place.program)[k]? =
        some ⟨.node x.sight.seen, x.place⟩ ∧
      entry.2.encounters[k]? = some c ∧
      c.item.annotate Place.distance? x.place = .node x.sight.seen ∧
      c.Mirrors x ∧
      ∀ region ∈ x.place.regions, ∃! j : Nat,
        (entry.2.resolve.program.visits x.place.program)[j]?.bind Visit.opens? = some region := by
  refine ⟨machine_interpretAll _ 0 programs, fun x hx => ?_⟩
  have hplain : (Texts.ofSession programs fun _ => False).Plain := fun _ _ hs => hs.elim
  have hagrees := session_agrees clock modules hplain x hx
  obtain ⟨entry, hentry, hvisit⟩ := hagrees.visit
  obtain ⟨k, hk⟩ := List.mem_iff_getElem?.1 hvisit
  obtain ⟨c, hc, hitem, hfits⟩ := Program.exists_encounter hk
  refine ⟨entry, k, c, hentry, hk, hc, hitem, hagrees.mirrors hfits fun e he => ?_,
    fun region hr => Program.existsUnique_opens _ _ hvisit hr⟩
  rw [he] at hitem
  obtain ⟨e', -, rfl⟩ := Item.exists_of_annotate_eq_expr hitem
  exact Expr.hops?_annotate _ _ _

end Observed

/-- A read of `self` the given number of hops out. -/
def Sight.readsSelf (D : Nat) : Sight → Bool
  | .access (.self _ (some hops)) _ => hops == D
  | _ => false

theorem Sight.exists_of_readsSelf {D : Nat} {sight : Sight} (h : sight.readsSelf D) :
    ∃ keyword written, sight = .access (.self keyword (some D)) written := by
  unfold readsSelf at h
  split at h
  · obtain rfl := beq_iff_eq.1 h
    exact ⟨_, _, rfl⟩
  · cases h

/-- An object whose method hands back `self`, and a call of the method on a new instance. -/
def selfReturned : Program :=
  [.object .blank ⟨.identifier, "O", 1, .null⟩
    [⟨.blank, ⟨.identifier, "m", 1, .null⟩, [], [.return .blank (some (.self .blank none))]⟩],
    .expression .blank (.call (.get (.call (.variable ⟨.identifier, "O", 2, .null⟩ none) .blank [])
      ⟨.identifier, "m", 2, .null⟩) .blank [])]

theorem selfReturned_scopes :
    ∃ x ∈ (Observed.session ⟨fun _ => 0, 0⟩ [] [(20, selfReturned)]).past, ∃ keyword scope,
      x.sight.seen = .expr (.self keyword (some 1)) ∧
      x.state.machine.store.scopes.ancestor? 1 x.state.machine.current = some scope ∧
      scope ≠ x.state.machine.globals ∧ x.state.regions scope = x.place.regions.drop 1 := by
  have hread : (Observed.session ⟨fun _ => 0, 0⟩ [] [(20, selfReturned)]).past.any
      (·.sight.readsSelf 1) = true := by decide +kernel
  obtain ⟨x, hx, hself⟩ := List.any_eq_true.1 hread
  obtain ⟨-, hall⟩ := Observed.session_scopes_agree ⟨fun _ => 0, 0⟩ [] [(20, selfReturned)]
  obtain ⟨entry, k, c, -, -, -, -, hmirrors, -⟩ := hall x hx
  obtain ⟨keyword, written, hsight⟩ := Sight.exists_of_readsSelf hself
  have hseen : x.sight.seen = .expr (.self keyword (some 1)) := by
    rw [hsight]
    rfl
  obtain ⟨name, scope, -, -, -, ha, hne, hr⟩ := hmirrors.references _ 1 hseen rfl
  exact ⟨x, hx, keyword, scope, hseen, ha, hne, hr⟩

end Treescript
