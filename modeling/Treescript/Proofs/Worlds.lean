import Mathlib.Order.Nat
import Treescript.Proofs.ScopeViews
import Treescript.Proofs.WatchedRuns

/-!
# Labelled worlds

The part of a labelled machine that scoping is about, and when its labels are right. The label of
a scope lists the local scopes of the text that the scope and those around it are activations of,
and a scope binds only names that its own local scope declares. An operation lies in a scope with
the label of the place it was declared at; a method lies one scope further out until `self` is bound
for it.

For strict programs more is asked: where a place is active, the names seen before it are bound, all
but the one whose initial value the place is in. The texts are a parameter, so that the same
invariant serves any set of programs.
-/

namespace Treescript

/-- The visits of all programs of a session, and which of the programs are strict. -/
structure Texts where
  visits : Visit → Prop
  strict : Nat → Prop

@[ext]
structure World where
  store : Store
  globals : ScopeId
  regions : ScopeId → List Region
  origins : Nat → Origin

/-- The place whose local scopes are around an operation, which for a method do not yet include the
one of `self`. -/
def Origin.around (origin : Origin) : Place :=
  if origin.callable then origin.place
  else { origin.place with layers := origin.place.layers.tail }

def Labelled.world (s : Labelled) : World :=
  ⟨s.machine.store, s.machine.globals, s.regions, s.origins⟩

namespace World

def scopes (w : World) : Scopes Value := w.store.scopes

def Binds (w : World) (i : ScopeId) (x : String) : Prop := (w.scopes.get? i x).isSome

def IsMethod (w : World) (id : Nat) : Prop :=
  id < w.store.closures.size ∧ (w.origins id).callable = false

/-- Nothing that is there is lost or relabelled. -/
structure Grows (w w' : World) : Prop where
  globals : w'.globals = w.globals
  scopes_le : w.scopes.size ≤ w'.scopes.size
  outer : ∀ i < w.scopes.size, w'.scopes.outer? i = w.scopes.outer? i
  regions : ∀ i < w.scopes.size, w'.regions i = w.regions i
  binds : ∀ i x, w.Binds i x → w'.Binds i x
  closures_le : w.store.closures.size ≤ w'.store.closures.size
  origins : ∀ id < w.store.closures.size, w'.origins id = w.origins id

namespace Grows

theorem refl (w : World) : w.Grows w :=
  ⟨rfl, le_refl _, fun _ _ => rfl, fun _ _ => rfl, fun _ _ h => h, le_refl _, fun _ _ => rfl⟩

theorem trans {w₁ w₂ w₃ : World} (h : w₁.Grows w₂) (h' : w₂.Grows w₃) : w₁.Grows w₃ where
  globals := h'.globals.trans h.globals
  scopes_le := h.scopes_le.trans h'.scopes_le
  outer i hi := (h'.outer i (hi.trans_le h.scopes_le)).trans (h.outer i hi)
  regions i hi := (h'.regions i (hi.trans_le h.scopes_le)).trans (h.regions i hi)
  binds i x hb := h'.binds i x (h.binds i x hb)
  closures_le := h.closures_le.trans h'.closures_le
  origins id hid := (h'.origins id (hid.trans_le h.closures_le)).trans (h.origins id hid)

theorem ancestor? {w w' : World} (h : w.Grows w') (k : Nat) {i : ScopeId} (hi : i < w.scopes.size) :
    w'.scopes.ancestor? k i = w.scopes.ancestor? k i :=
  Scopes.ancestor?_eq_of_outer? h.outer k hi

end Grows

theorem IsMethod.mono {w w' : World} (hg : w.Grows w') {id : Nat} (h : w.IsMethod id) :
    w'.IsMethod id :=
  ⟨h.1.trans_le hg.closures_le, (hg.origins id h.1).symm ▸ h.2⟩

/-- The names seen before a place are bound around a scope. The name of a definition whose initial
value the place is in may still be missing. -/
def Ready (w : World) (P : Place) (i : ScopeId) : Prop :=
  ∀ k layer x, P.layers[k]? = some layer → x ∈ layer.seen →
    (∃ a, w.scopes.ancestor? k i = some a ∧ w.Binds a x) ∨ (k = 0 ∧ P.defining = some x)

theorem Ready.mono {w w' : World} (hg : w.Grows w') {P : Place} {i : ScopeId}
    (hi : i < w.scopes.size) (h : w.Ready P i) : w'.Ready P i := by
  intro k layer x hk hx
  rcases h k layer x hk hx with ⟨a, ha, hb⟩ | hd
  · exact .inl ⟨a, (hg.ancestor? k hi).trans ha, hg.binds a x hb⟩
  · exact .inr hd

end World

section

variable (T : Texts)

/-- The scope is an activation of the innermost local scope around the place. -/
def World.Activates (w : World) (P : Place) (i : ScopeId) : Prop :=
  i < w.scopes.size ∧ w.regions i = P.regions ∧ (T.strict P.program → w.Ready P i)

/-- An operation that a value refers to can be called. -/
def Value.Fits (w : World) : Value → Prop
  | .operation id => id < w.store.closures.size ∧ (w.origins id).callable = true
  | _ => True

/-- An operation lies where its text does. -/
structure Closure.Fits (w : World) (c : Closure) (origin : Origin) : Prop where
  visits : ∀ v ∈ c.declaration.visits origin.place, T.visits v
  defining : origin.place.defining = none
  activates : w.Activates T origin.around c.scope
  method : origin.callable = false → ∃ layer outer, origin.place.layers = layer :: outer ∧
    layer.region.names = [selfName] ∧ layer.seen = [selfName]

structure World.Sound (w : World) : Prop where
  globals_lt : w.globals < w.scopes.size
  globals_outer : w.scopes.outer? w.globals = none
  globals_regions : w.regions w.globals = []
  inner : ∀ i < w.scopes.size, i ≠ w.globals → ∃ region o, w.scopes.outer? i = some o ∧
    w.regions i = region :: w.regions o ∧ ∀ x, w.Binds i x → x ∈ region.names
  bindings : ∀ i x v, w.scopes.get? i x = some v → v.Fits w
  fields : ∀ fs ∈ w.store.holders, ∀ x v, fs.get? x = some v → v.Fits w
  members : ∀ t ∈ w.store.forms, ∀ x v, t.members.get? x = some v → v.Fits w
  methods : ∀ t ∈ w.store.objects, ∀ x id, t.methods.get? x = some id → w.IsMethod id
  closures : ∀ id (c : Closure), w.store.closures[id]? = some c → c.Fits T w (w.origins id)

end

variable {T : Texts} {w w' : World} {P : Place} {i : ScopeId}

theorem World.Activates.mono (hg : w.Grows w') (h : w.Activates T P i) :
    w'.Activates T P i :=
  ⟨h.1.trans_le hg.scopes_le, (hg.regions i h.1).trans h.2.1, fun hs => (h.2.2 hs).mono hg h.1⟩

theorem Value.Fits.mono (hg : w.Grows w') {v : Value} (h : v.Fits w) : v.Fits w' := by
  cases v with
  | operation id => exact ⟨h.1.trans_le hg.closures_le, (hg.origins id h.1).symm ▸ h.2⟩
  | _ => trivial

theorem Closure.Fits.mono (hg : w.Grows w') {c : Closure} {origin : Origin}
    (h : c.Fits T w origin) : c.Fits T w' origin :=
  { h with activates := h.activates.mono hg }

namespace World

theorem Sound.fits_operation (h : w.Sound T) {id : Nat} {c : Closure}
    (hv : (Value.operation id).Fits w) (hc : w.store.closures[id]? = some c) :
    c.Fits T w ⟨(w.origins id).place, true⟩ := by
  have hfit := h.closures id c hc
  rwa [show w.origins id = ⟨(w.origins id).place, true⟩ from hv.2 ▸ rfl] at hfit

theorem Sound.fits_method (h : w.Sound T) {id : Nat} {c : Closure} (hm : w.IsMethod id)
    (hc : w.store.closures[id]? = some c) : c.Fits T w ⟨(w.origins id).place, false⟩ := by
  have hfit := h.closures id c hc
  rwa [show w.origins id = ⟨(w.origins id).place, false⟩ from hm.2 ▸ rfl] at hfit

theorem Sound.isMethod_pilot (h : w.Sound T) {t : TypeRef} {pilot : Nat}
    (hp : w.store.pilot? t = some pilot) : w.IsMethod pilot := by
  cases t with
  | object id =>
    obtain ⟨type, htype, hmethod⟩ := Option.bind_eq_some_iff.1 hp
    exact h.methods type (Array.mem_of_getElem? htype) pilotName pilot hmethod
  | enum id => cases hp
  | form id => cases hp

def define (w : World) (i : ScopeId) (x : String) (v : Value) : World :=
  { w with store := w.store.define i x v }

theorem grows_define (w : World) (i : ScopeId) (x : String) (v : Value) :
    w.Grows (w.define i x v) where
  globals := rfl
  scopes_le := (Scopes.size_define ..).ge
  outer _ _ := Scopes.outer?_define ..
  regions _ _ := rfl
  binds _ _ hb := Scopes.isSome_get?_define _ hb
  closures_le := le_refl _
  origins _ _ := rfl

theorem binds_define (hi : i < w.scopes.size) (x : String) (v : Value) :
    (w.define i x v).Binds i x := by
  rw [Binds, show (w.define i x v).scopes = w.scopes.define i x v from rfl,
    Scopes.get?_define_self _ hi]
  rfl

theorem Sound.define (h : w.Sound T) {x : String} {v : Value} (hv : v.Fits w)
    (hx : ∀ region outer, w.regions i = region :: outer → x ∈ region.names) :
    (w.define i x v).Sound T := by
  have hg := w.grows_define i x v
  have hsize : (w.define i x v).scopes.size = w.scopes.size := Scopes.size_define ..
  have hcases : ∀ j y u, (w.define i x v).scopes.get? j y = some u →
      (j = i ∧ y = x ∧ u = v) ∨ w.scopes.get? j y = some u :=
    fun j y u hu => Scopes.get?_define_cases _ hu
  refine ⟨hsize.symm ▸ h.globals_lt, (hg.outer _ h.globals_lt).trans h.globals_outer,
    h.globals_regions, ?inner, ?bindings, ?fields, ?members, h.methods, ?closures⟩
  case inner =>
    intro j hj hne
    rw [hsize] at hj
    obtain ⟨region, o, ho, hr, hb⟩ := h.inner j hj hne
    refine ⟨region, o, (hg.outer j hj).trans ho, hr, fun y hy => ?_⟩
    obtain ⟨u, hu⟩ := Option.isSome_iff_exists.1 hy
    rcases hcases j y u hu with ⟨rfl, rfl, -⟩ | hu
    · exact hx region _ hr
    · exact hb y (Option.isSome_iff_exists.2 ⟨u, hu⟩)
  case bindings =>
    intro j y u hu
    rcases hcases j y u hu with ⟨-, -, rfl⟩ | hu
    · exact hv.mono hg
    · exact (h.bindings j y u hu).mono hg
  case fields => exact fun fs hfs y u hu => (h.fields fs hfs y u hu).mono hg
  case members => exact fun t ht y u hu => (h.members t ht y u hu).mono hg
  case closures => exact fun id c hc => (h.closures id c hc).mono hg

def enter (w : World) (outer : ScopeId) (regions : List Region) : World :=
  { w with
    store := (w.store.enterScope outer).1
    regions := fun i => if i = w.scopes.size then regions else w.regions i }

theorem size_enter (w : World) (outer : ScopeId) (regions : List Region) :
    (w.enter outer regions).scopes.size = w.scopes.size + 1 := Scopes.size_push ..

theorem get?_enter (w : World) (outer : ScopeId) (regions : List Region) (j : ScopeId)
    (x : String) : (w.enter outer regions).scopes.get? j x = w.scopes.get? j x :=
  Scopes.get?_push ..

theorem outer?_enter (ho : i < w.scopes.size) (regions : List Region) :
    (w.enter i regions).scopes.outer? w.scopes.size = some i := Scopes.outer?_push_size _ ho

theorem regions_enter (w : World) (outer : ScopeId) (regions : List Region) :
    (w.enter outer regions).regions w.scopes.size = regions := if_pos rfl

theorem grows_enter (w : World) (outer : ScopeId) (regions : List Region) :
    w.Grows (w.enter outer regions) where
  globals := rfl
  scopes_le := (size_enter ..).symm ▸ Nat.le_succ _
  outer _ hj := Scopes.outer?_push_of_lt _ hj _
  regions _ hj := if_neg (Nat.ne_of_lt hj)
  binds j x hb := by rwa [Binds, get?_enter]
  closures_le := le_refl _
  origins _ _ := rfl

theorem Sound.enter (h : w.Sound T) (hi : i < w.scopes.size) (region : Region) :
    (w.enter i (region :: w.regions i)).Sound T := by
  have hg := w.grows_enter i (region :: w.regions i)
  refine ⟨h.globals_lt.trans_le hg.scopes_le, (hg.outer _ h.globals_lt).trans h.globals_outer,
    (hg.regions _ h.globals_lt).trans h.globals_regions, ?inner, ?bindings, ?fields, ?members,
    h.methods, ?closures⟩
  case inner =>
    intro j hj hne
    rw [size_enter] at hj
    by_cases hnew : j = w.scopes.size
    · subst hnew
      refine ⟨region, i, outer?_enter hi _, ?_, fun x hx => ?_⟩
      · rw [regions_enter, hg.regions i hi]
      · rw [Binds, get?_enter] at hx
        obtain ⟨v, hv⟩ := Option.isSome_iff_exists.1 hx
        exact absurd (Scopes.lt_size_of_get?_eq_some _ hv) (lt_irrefl _)
    · have hold : j < w.scopes.size := by omega
      obtain ⟨r, o, ho, hr, hb⟩ := h.inner j hold hne
      refine ⟨r, o, (hg.outer j hold).trans ho, ?_, fun x hx => hb x ?_⟩
      · rw [hg.regions j hold, hr, hg.regions o ((Scopes.outer?_lt ho).trans hold)]
      · rwa [Binds, get?_enter] at hx
  case bindings =>
    intro j x v hv
    rw [get?_enter] at hv
    exact (h.bindings j x v hv).mono hg
  case fields => exact fun fs hfs x v hv => (h.fields fs hfs x v hv).mono hg
  case members => exact fun t ht x v hv => (h.members t ht x v hv).mono hg
  case closures => exact fun id c hc => (h.closures id c hc).mono hg

def addClosure (w : World) (c : Closure) (origin : Origin) : World :=
  { w with
    store := (w.store.addClosure c).1
    origins := fun id => if id = w.store.closures.size then origin else w.origins id }

theorem grows_addClosure (w : World) (c : Closure) (origin : Origin) :
    w.Grows (w.addClosure c origin) where
  globals := rfl
  scopes_le := le_refl _
  outer _ _ := rfl
  regions _ _ := rfl
  binds _ _ hb := hb
  closures_le := (Array.size_push c).symm ▸ Nat.le_succ _
  origins _ hid := if_neg (Nat.ne_of_lt hid)

theorem Sound.addClosure (h : w.Sound T) {c : Closure} {origin : Origin}
    (hc : c.Fits T w origin) : (w.addClosure c origin).Sound T := by
  have hg := w.grows_addClosure c origin
  refine ⟨h.globals_lt, h.globals_outer, h.globals_regions, h.inner, ?bindings, ?fields, ?members,
    ?methods, ?closures⟩
  case bindings => exact fun j x v hv => (h.bindings j x v hv).mono hg
  case fields => exact fun fs hfs x v hv => (h.fields fs hfs x v hv).mono hg
  case members => exact fun t ht x v hv => (h.members t ht x v hv).mono hg
  case methods => exact fun t ht x id hid => (h.methods t ht x id hid).mono hg
  case closures =>
    intro id d hd
    rw [show (w.addClosure c origin).store.closures = w.store.closures.push c from rfl,
      Array.getElem?_push] at hd
    split at hd
    · next hnew =>
      obtain rfl := Option.some.inj hd
      rw [show (w.addClosure c origin).origins id = origin from if_pos hnew]
      exact hc.mono hg
    · obtain ⟨hlt, -⟩ := Array.getElem?_eq_some_iff.1 hd
      rw [hg.origins id hlt]
      exact (h.closures id d hd).mono hg

/-- A change of the store that leaves scopes and operations as they are. -/
theorem grows_of_eq {store : Store} (hs : store.scopes = w.store.scopes)
    (hc : store.closures = w.store.closures) : w.Grows { w with store } where
  globals := rfl
  scopes_le := by rw [scopes, scopes, hs]
  outer _ _ := by rw [scopes, scopes, hs]
  regions _ _ := rfl
  binds _ _ hb := by rwa [Binds, scopes, hs]
  closures_le := by rw [hc]
  origins _ _ := rfl

theorem Sound.of_eq (h : w.Sound T) {store : Store}
    (hs : store.scopes = w.store.scopes) (hc : store.closures = w.store.closures)
    (hfields : ∀ fs ∈ store.holders, ∀ x v, fs.get? x = some v → v.Fits w)
    (hmembers : ∀ t ∈ store.forms, ∀ x v, t.members.get? x = some v → v.Fits w)
    (hmethods : ∀ t ∈ store.objects, ∀ x id, t.methods.get? x = some id → w.IsMethod id) :
    World.Sound T { w with store } := by
  have hg := grows_of_eq hs hc
  have hscopes : World.scopes { w with store } = w.scopes := hs
  refine ⟨?globals_lt, ?globals_outer, h.globals_regions, ?inner, ?bindings, ?fields, ?members,
    ?methods, ?closures⟩
  case globals_lt =>
    rw [hscopes]
    exact h.globals_lt
  case globals_outer =>
    rw [hscopes]
    exact h.globals_outer
  case inner =>
    intro j hj hne
    simp only [Binds, hscopes] at hj ⊢
    exact h.inner j hj hne
  case bindings =>
    intro j x v hv
    rw [hscopes] at hv
    exact (h.bindings j x v hv).mono hg
  case fields => exact fun fs hfs x v hv => (hfields fs hfs x v hv).mono hg
  case members => exact fun t ht x v hv => (hmembers t ht x v hv).mono hg
  case methods => exact fun t ht x id hid => (hmethods t ht x id hid).mono hg
  case closures =>
    intro id c hd
    rw [hc] at hd
    exact (h.closures id c hd).mono hg

def defineAll (w : World) (i : ScopeId) (entries : List (String × Value)) : World :=
  entries.foldl (fun w entry => w.define i entry.1 entry.2) w

theorem store_defineAll (w : World) (i : ScopeId) (entries : List (String × Value)) :
    w.defineAll i entries =
      { w with store := { w.store with scopes := w.store.scopes.defineAll i entries } } := by
  induction entries generalizing w with
  | nil => rfl
  | cons entry rest ih => exact ih _

theorem Sound.defineAll (h : w.Sound T) {entries : List (String × Value)}
    (hv : ∀ entry ∈ entries, entry.2.Fits w)
    (hx : ∀ region outer, w.regions i = region :: outer → ∀ entry ∈ entries,
      entry.1 ∈ region.names) :
    (w.defineAll i entries).Sound T := by
  induction entries generalizing w with
  | nil => exact h
  | cons entry rest ih =>
    have hg := w.grows_define i entry.1 entry.2
    have hfirst := h.define (hv entry List.mem_cons_self) fun region outer hr =>
      hx region outer hr entry List.mem_cons_self
    exact ih hfirst (fun e he => (hv e (List.mem_cons_of_mem _ he)).mono hg)
      fun region outer hr e he => hx region outer hr e (List.mem_cons_of_mem _ he)

theorem grows_defineAll (w : World) (i : ScopeId) (entries : List (String × Value)) :
    w.Grows (w.defineAll i entries) := by
  induction entries generalizing w with
  | nil => exact .refl _
  | cons entry rest ih => exact (w.grows_define i entry.1 entry.2).trans (ih _)

theorem binds_defineAll (hi : i < w.scopes.size) {entries : List (String × Value)} {x : String}
    (hx : x ∈ entries.map Prod.fst) : (w.defineAll i entries).Binds i x := by
  induction entries generalizing w with
  | nil => exact absurd hx List.not_mem_nil
  | cons entry rest ih =>
    have hg := w.grows_define i entry.1 entry.2
    rcases List.mem_cons.1 hx with rfl | hx
    · exact (grows_defineAll _ i rest).binds i _ (binds_define hi _ _)
    · exact ih (hi.trans_le hg.scopes_le) hx

def addMethods (w : World) (scope : ScopeId) (P : Place) : List Operation → World
  | [] => w
  | o :: rest =>
    (w.addClosure ⟨o, scope, o.name.text == pilotName⟩ ⟨P.child 0, false⟩).addMethods scope
      (P.child 1) rest

theorem grows_addMethods (w : World) (scope : ScopeId) (P : Place) (methods : List Operation) :
    w.Grows (w.addMethods scope P methods) := by
  induction methods generalizing w P with
  | nil => exact .refl _
  | cons o rest ih => exact (w.grows_addClosure _ _).trans (ih _ _)

theorem Sound.addMethods (h : w.Sound T) {scope : ScopeId} {methods : List Operation}
    (hd : P.defining = none)
    (hm : ∃ layer outer, P.layers = layer :: outer ∧ layer.region.names = [selfName] ∧
      layer.seen = [selfName])
    (hv : ∀ v ∈ Operation.visitsOfList P methods, T.visits v)
    (ha : w.Activates T { P with layers := P.layers.tail } scope) :
    (w.addMethods scope P methods).Sound T := by
  induction methods generalizing w P with
  | nil => exact h
  | cons o rest ih =>
    rw [Operation.visitsOfList, List.cons_append, List.forall_mem_cons,
      List.forall_mem_append] at hv
    have hfit : Closure.Fits T w ⟨o, scope, o.name.text == pilotName⟩ ⟨P.child 0, false⟩ :=
      ⟨hv.2.1, hd, ha, fun _ => hm⟩
    refine ih (h.addClosure hfit) ?_ ?_ hv.2.2 ?_
    · exact hd
    · exact hm
    · exact ha.mono (w.grows_addClosure _ _)

/-- The store is the one that the machine makes, and what the table names are methods. -/
theorem store_addMethods (w : World) (scope : ScopeId) (P : Place) (methods : List Operation)
    (table : NameMap Nat) (ht : ∀ x id, table.get? x = some id → w.IsMethod id) :
    let made := methods.foldl (fun acc m =>
      let (s, id) := Store.addClosure acc.1 ⟨m, scope, m.name.text == pilotName⟩
      (s, acc.2.insert m.name.text id)) (w.store, table)
    (w.addMethods scope P methods).store = made.1 ∧
      ∀ x id, made.2.get? x = some id → (w.addMethods scope P methods).IsMethod id := by
  induction methods generalizing w P table with
  | nil => exact ⟨rfl, ht⟩
  | cons o rest ih =>
    refine ih _ _ _ fun x id hid => ?_
    rw [NameMap.get?_insert] at hid
    have hg := w.grows_addClosure ⟨o, scope, o.name.text == pilotName⟩ ⟨P.child 0, false⟩
    -- the table names the new operation, or one that it named before
    split at hid
    · obtain rfl := Option.some.inj hid
      refine ⟨?_, ?_⟩
      · exact (Array.size_push _).symm ▸ Nat.lt_succ_self _
      · exact congrArg Origin.callable (if_pos rfl)
    · exact (ht x id hid).mono hg

theorem labels_addMethods (s : Labelled) (w : World) (scope : ScopeId) (P : Place)
    (methods : List Operation) (ho : s.origins = w.origins) (hr : s.regions = w.regions) :
    (w.addMethods scope P methods).origins =
        (s.labelMethods P w.store.closures.size methods).origins ∧
      (w.addMethods scope P methods).regions =
        (s.labelMethods P w.store.closures.size methods).regions ∧
      (w.addMethods scope P methods).globals = w.globals := by
  induction methods generalizing w s P with
  | nil => exact ⟨ho.symm, hr.symm, rfl⟩
  | cons o rest ih =>
    have hsize : (w.addClosure ⟨o, scope, o.name.text == pilotName⟩
        ⟨P.child 0, false⟩).store.closures.size = w.store.closures.size + 1 := Array.size_push _
    rw [Labelled.labelMethods, ← hsize]
    refine ih _ _ _ ?_ ?_
    · simp only [Labelled.labelOperation, ho]
      rfl
    · exact hr

theorem Sound.ancestor (h : w.Sound T) {k : Nat} (hi : i < w.scopes.size)
    (hk : k ≤ (w.regions i).length) : ∃ a, w.scopes.ancestor? k i = some a ∧
      a < w.scopes.size ∧ w.regions a = (w.regions i).drop k := by
  induction k generalizing i with
  | zero => exact ⟨i, rfl, hi, rfl⟩
  | succ k ih =>
    have hne : i ≠ w.globals := by
      rintro rfl
      rw [h.globals_regions] at hk
      exact Nat.not_succ_le_zero k hk
    obtain ⟨region, o, ho, hr, -⟩ := h.inner i hi hne
    rw [hr, List.length_cons, Nat.succ_le_succ_iff] at hk
    obtain ⟨a, ha, hlt, hra⟩ := ih ((Scopes.outer?_lt ho).trans hi) hk
    exact ⟨a, (Scopes.ancestor?_succ ho k).trans ha, hlt, by rw [hra, hr, List.drop_succ_cons]⟩

theorem Sound.permits_of_binds (h : w.Sound T) {x : String} (hb : w.Binds i x) (region : Region)
    (outer : List Region) (hr : w.regions i = region :: outer) : x ∈ region.names := by
  obtain ⟨v, hv⟩ := Option.isSome_iff_exists.1 hb
  have hi := Scopes.lt_size_of_get?_eq_some _ hv
  have hne : i ≠ w.globals := by
    rintro rfl
    rw [h.globals_regions] at hr
    exact absurd hr (List.cons_ne_nil _ _).symm
  obtain ⟨r, o, -, hcons, hnames⟩ := h.inner i hi hne
  obtain rfl : r = region := (List.cons.inj (hcons.symm.trans hr)).1
  exact hnames x hb

theorem Sound.eq_globals_iff (h : w.Sound T) (hi : i < w.scopes.size) :
    i = w.globals ↔ w.regions i = [] := by
  constructor
  · rintro rfl
    exact h.globals_regions
  · intro hr
    by_contra hne
    obtain ⟨region, o, -, hcons, -⟩ := h.inner i hi hne
    rw [hr] at hcons
    exact absurd hcons (List.cons_ne_nil _ _).symm

end World

/-- The innermost local scope around a place declares the names, before or after the place. -/
def Place.Permits (P : Place) (names : List String) : Prop :=
  ∀ layer ∈ P.layers.head?, ∀ x ∈ names, x ∈ layer.region.names

theorem Place.Permits.after {names : List String} (h : P.Permits names) (others : List String) :
    (P.after others).Permits names := by
  obtain ⟨_, _, layers, _, _, _⟩ := P
  cases layers with
  | nil => exact h
  | cons layer outer =>
    rintro _ ⟨⟩
    exact h layer rfl

namespace World.Activates

theorem permits (h : w.Activates T P i) {x : String} (hp : P.Permits [x]) (region : Region)
    (outer : List Region) (hr : w.regions i = region :: outer) : x ∈ region.names := by
  rw [h.2.1, Place.regions] at hr
  obtain ⟨layer, rest, hl, rfl, -⟩ := List.map_eq_cons_iff.1 hr
  exact hp layer (by rw [hl]; rfl) x (List.mem_singleton_self x)

theorem after_of_strict (h : w.Activates T P i) {names : List String}
    (hn : T.strict P.program → names = []) : w.Activates T (P.after names) i := by
  refine ⟨h.1, h.2.1.trans (P.regions_after names).symm, fun hs => ?_⟩
  rw [hn hs, Place.after_nil]
  exact h.2.2 hs

/-- The initial value of a definition does not need the name that it will define. -/
theorem initializer (hd : P.defining = none) (h : w.Activates T P i) (x : String) :
    w.Activates T (P.initializer x) i := by
  refine ⟨h.1, h.2.1.trans (P.regions_after [x]).symm, fun hs => ?_⟩
  have hready := h.2.2 hs
  obtain ⟨_, _, layers, _, _, defining⟩ := P
  obtain rfl : defining = none := hd
  intro k layer y hk hy
  cases layers with
  | nil => exact absurd hk (by simp [Place.initializer, Place.after])
  | cons first outer =>
    cases k with
    | zero =>
      obtain rfl := Option.some.inj hk
      rcases List.mem_append.1 hy with hy | hy
      · rcases hready 0 first y rfl hy with hb | ⟨-, hc⟩
        · exact .inl hb
        · cases hc
      · obtain rfl := List.mem_singleton.1 hy
        exact .inr ⟨rfl, rfl⟩
    | succ k =>
      rcases hready (k + 1) layer y hk hy with hb | ⟨-, hc⟩
      · exact .inl hb
      · cases hc

theorem after_of_binds (hd : P.defining = none) (h : w.Activates T P i) {x : String}
    (hb : w.Binds i x) : w.Activates T (P.after [x]) i := by
  have hinit := h.initializer hd x
  refine ⟨hinit.1, hinit.2.1, fun hs k layer y hk hy => ?_⟩
  rcases hinit.2.2 hs k layer y hk hy with hbound | ⟨rfl, hx⟩
  · exact .inl hbound
  · obtain rfl := Option.some.inj hx
    exact .inl ⟨i, rfl, hb⟩

theorem inner {layer : Layer} {outer : List Layer} (hl : P.layers = layer :: outer)
    (hd : P.defining = none) (h : w.Activates T { P with layers := outer } i)
    (hg : w.Grows w') {n : ScopeId} (hn : n < w'.scopes.size) (hr : w'.regions n = P.regions)
    (ho : w'.scopes.outer? n = some i) (hb : ∀ x ∈ layer.seen, w'.Binds n x) :
    w'.Activates T P n := by
  refine ⟨hn, hr, fun hs k l x hk hx => ?_⟩
  rw [hl] at hk
  cases k with
  | zero =>
    obtain rfl := Option.some.inj hk
    exact .inl ⟨n, rfl, hb x hx⟩
  | succ k =>
    rcases (h.mono hg).2.2 hs k l x hk hx with ⟨a, ha, hbound⟩ | ⟨-, hc⟩
    · exact .inl ⟨a, (Scopes.ancestor?_succ ho k).trans ha, hbound⟩
    · rw [show P.defining = some x from hc] at hd
      exact absurd hd nofun

end World.Activates

def World.openScope (w : World) (outer : ScopeId) (regions : List Region)
    (bindings : List (String × Value)) : World :=
  (w.enter outer regions).defineAll w.scopes.size bindings

namespace World

theorem grows_openScope (w : World) (outer : ScopeId) (regions : List Region)
    (bindings : List (String × Value)) : w.Grows (w.openScope outer regions bindings) :=
  (w.grows_enter outer regions).trans (grows_defineAll _ _ _)

/-- The new scope is an activation of the innermost local scope around a place if it lies in an
activation of the scopes further out and binds what is seen before the place. -/
theorem Sound.openScope {layer : Layer} {outer : List Layer} {bindings : List (String × Value)}
    (h : w.Sound T) (hl : P.layers = layer :: outer) (hd : P.defining = none)
    (ha : w.Activates T { P with layers := outer } i) (hv : ∀ b ∈ bindings, b.2.Fits w)
    (hn : ∀ b ∈ bindings, b.1 ∈ layer.region.names)
    (hs : ∀ x ∈ layer.seen, x ∈ bindings.map Prod.fst) :
    (w.openScope i P.regions bindings).Sound T ∧
      (w.openScope i P.regions bindings).Activates T P w.scopes.size := by
  have hregions : P.regions = layer.region :: w.regions i := by
    rw [ha.2.1, Place.regions, hl]
    rfl
  have hg := w.grows_enter i P.regions
  have hlabel := w.regions_enter i P.regions
  have hnew : w.scopes.size < (w.enter i P.regions).scopes.size :=
    (w.size_enter i P.regions).symm ▸ Nat.lt_succ_self _
  have hsound : (w.enter i P.regions).Sound T := by
    rw [hregions]
    exact h.enter ha.1 layer.region
  have hall := grows_defineAll (w.enter i P.regions) w.scopes.size bindings
  refine ⟨?_, ?_⟩
  · refine hsound.defineAll (fun b hb => (hv b hb).mono hg) fun region rest hr b hb => ?_
    rw [hlabel, hregions] at hr
    rw [← (List.cons.inj hr).1]
    exact hn b hb
  · refine Activates.inner hl hd ha (hg.trans hall) (hnew.trans_le hall.scopes_le) ?_ ?_ ?_
    · exact (hall.regions _ hnew).trans hlabel
    · exact (hall.outer _ hnew).trans (outer?_enter ha.1 _)
    · exact fun x hx => binds_defineAll hnew (hs x hx)

theorem addClosure_spec (w : World) (c : Closure) (P : Place) :
    (Value.operation w.store.closures.size).Fits (w.addClosure c ⟨P, true⟩) ∧
      (w.addClosure c ⟨P, true⟩).origins w.store.closures.size = ⟨P, true⟩ ∧
      (w.addClosure c ⟨P, true⟩).store.closures[w.store.closures.size]? = some c := by
  have horigin : (w.addClosure c ⟨P, true⟩).origins w.store.closures.size = ⟨P, true⟩ := if_pos rfl
  have hget : (w.store.closures.push c)[w.store.closures.size]? = some c := Array.getElem?_push_size
  exact ⟨⟨(Array.getElem?_eq_some_iff.1 hget).1, congrArg Origin.callable horigin⟩, horigin, hget⟩

def declareOperation (w : World) (i : ScopeId) (o : Operation) (P : Place) : World :=
  (w.addClosure ⟨o, i, false⟩ ⟨P, true⟩).define i o.name.text (.operation w.store.closures.size)

-- The operation needs its own name bound and the binding needs the operation. Binding the name to
-- nothing first breaks the circle, and in the end makes no difference.
theorem declareOperation_eq (w : World) (i : ScopeId) (o : Operation) (P : Place) :
    w.declareOperation i o P = ((w.define i o.name.text .none).addClosure ⟨o, i, false⟩
      ⟨P, true⟩).define i o.name.text (.operation w.store.closures.size) := by
  simp only [declareOperation, define, addClosure, Store.define, Store.addClosure,
    Scopes.define_define]
  rfl

theorem Sound.declareOperation (h : w.Sound T) (hd : P.defining = none)
    (ha : w.Activates T P i) {o : Operation} (hp : P.Permits [o.name.text])
    (hv : ∀ v ∈ o.visits (P.after [o.name.text]), T.visits v) :
    (w.declareOperation i o (P.after [o.name.text])).Sound T ∧
      w.Grows (w.declareOperation i o (P.after [o.name.text])) := by
  have hg := w.grows_define i o.name.text .none
  have hbound := (ha.mono hg).after_of_binds hd (binds_define ha.1 o.name.text .none)
  have hfit : Closure.Fits T (w.define i o.name.text .none) ⟨o, i, false⟩
      ⟨P.after [o.name.text], true⟩ := ⟨hv, hd, hbound, nofun⟩
  have hadd := (w.define i o.name.text .none).grows_addClosure ⟨o, i, false⟩
    ⟨P.after [o.name.text], true⟩
  have hcallable := (addClosure_spec (w.define i o.name.text .none) ⟨o, i, false⟩
    (P.after [o.name.text])).1
  have hnone := h.define (v := .none) trivial (ha.permits hp)
  rw [declareOperation_eq]
  refine ⟨(hnone.addClosure hfit).define hcallable ?_, (hg.trans hadd).trans (grows_define ..)⟩
  exact (ha.mono (hg.trans hadd)).permits hp

def addObject (w : World) (t : ObjectType) : World :=
  { w with store := (w.store.addObject t).1 }

theorem grows_addObject (w : World) (t : ObjectType) : w.Grows (w.addObject t) :=
  grows_of_eq rfl rfl

theorem Sound.addObject (h : w.Sound T) {t : ObjectType}
    (ht : ∀ x id, t.methods.get? x = some id → w.IsMethod id) : (w.addObject t).Sound T := by
  refine h.of_eq rfl rfl h.fields h.members fun u hu x id hid => ?_
  rcases Array.mem_push.1 hu with hu | rfl
  · exact h.methods u hu x id hid
  · exact ht x id hid

def declareObject (w : World) (i : ScopeId) (name : String) (P : Place)
    (methods : List Operation) : World :=
  let named := w.define i name .none
  let made := named.addMethods i P methods
  (made.addObject ⟨name, (named.store.addMethods i methods).2⟩).define i name
    (.type (.object made.store.objects.size))

theorem Sound.declareObject (h : w.Sound T) (hd : P.defining = none) (ha : w.Activates T P i)
    {name : String} (hp : P.Permits [name]) {methods : List Operation}
    (hv : ∀ v ∈ Operation.visitsOfList (P.after [name]).object methods, T.visits v) :
    (w.declareObject i name (P.after [name]).object methods).Sound T ∧
      w.Grows (w.declareObject i name (P.after [name]).object methods) ∧
      (w.declareObject i name (P.after [name]).object methods).Binds i name := by
  have hg₁ := w.grows_define i name .none
  have hs₁ := h.define (v := .none) trivial (ha.permits hp)
  have ha₁ := (ha.mono hg₁).after_of_binds hd (binds_define ha.1 name .none)
  have hg₂ := (w.define i name .none).grows_addMethods i (P.after [name]).object methods
  have hs₂ := hs₁.addMethods (P := (P.after [name]).object) hd ⟨_, _, rfl, rfl, rfl⟩ hv ha₁
  obtain ⟨-, htable⟩ := (w.define i name .none).store_addMethods i (P.after [name]).object methods
    .empty nofun
  have hg₃ := ((w.define i name .none).addMethods i (P.after [name]).object methods).grows_addObject
    ⟨name, ((w.define i name .none).store.addMethods i methods).2⟩
  have hg := (hg₁.trans hg₂).trans hg₃
  refine ⟨?_, hg.trans (grows_define ..), binds_define (ha.mono hg).1 _ _⟩
  exact (hs₂.addObject htable).define trivial ((ha.mono hg).permits hp)

end World

end Treescript
