import Treescript.Proofs.Revisions
import Treescript.Proofs.WatchContracts

/-!
# Machines in step

A machine that runs a program and one that runs a revision of it. They make operations, types and
holders in the same order, so these have the same numbers in both, and so do the values; only scopes
are numbered differently, because the second machine has more of them. A `Pairing` says which scope
of the second machine stands for which of the first, and it is `Sound` when all that is bound,
stored and declared is the same up to that and to new names.
-/

namespace Treescript

/-- Two machines and how they correspond. -/
structure Pairing where
  first : Machine
  second : Machine
  /-- The scope of the second machine that stands for one of the first. -/
  image : ScopeId → ScopeId
  /-- What has become of a scope of the first machine and of those around it. -/
  frames : ScopeId → List Frame
  /-- The scopes that only the second machine has. -/
  added : ScopeId → Prop
  /-- Operations that are ready to be called. -/
  callable : Nat → Prop
  /-- Methods, for which `self` is still to be bound. -/
  bindable : Nat → Prop

namespace Pairing

/-- The scope `j` of the second machine is where the first machine has `i`. -/
def Stands (t : Pairing) : List Frame → ScopeId → ScopeId → Prop
  | [], i, j => i < t.first.store.scopes.size ∧ j = t.image i ∧ t.frames i = []
  | .shared names :: fs, i, j =>
    i < t.first.store.scopes.size ∧ j = t.image i ∧ t.frames i = .shared names :: fs
  | .added :: fs, i, j => t.added j ∧ ∃ o, t.second.store.scopes.outer? j = some o ∧ t.Stands fs i o

theorem stands_iff {t : Pairing} {fs : List Frame} (h : (Frame.here? fs).isSome) {i j : ScopeId} :
    t.Stands fs i j ↔ i < t.first.store.scopes.size ∧ j = t.image i ∧ t.frames i = fs := by
  match fs, h with
  | [], _ => rfl
  | .shared _ :: _, _ => rfl

/-- The scopes in which the two machines are. -/
def At (t : Pairing) (fs : List Frame) : Prop := t.Stands fs t.first.current t.second.current

/-- Nothing that is there is lost or changes its counterpart. -/
structure Grows (t u : Pairing) : Prop where
  first_current : u.first.current = t.first.current
  second_current : u.second.current = t.second.current
  first_globals : u.first.globals = t.first.globals
  second_globals : u.second.globals = t.second.globals
  scopes_le : t.first.store.scopes.size ≤ u.first.store.scopes.size
  image : ∀ i < t.first.store.scopes.size, u.image i = t.image i
  frames : ∀ i < t.first.store.scopes.size, u.frames i = t.frames i
  added : ∀ j, t.added j →
    u.added j ∧ u.second.store.scopes.outer? j = t.second.store.scopes.outer? j
  closures_le : t.first.store.closures.size ≤ u.first.store.closures.size
  callable : ∀ id < t.first.store.closures.size, u.callable id ↔ t.callable id
  bindable : ∀ id < t.first.store.closures.size, u.bindable id ↔ t.bindable id

namespace Grows

theorem refl (t : Pairing) : t.Grows t :=
  ⟨rfl, rfl, rfl, rfl, le_refl _, fun _ _ => rfl, fun _ _ => rfl, fun _ h => ⟨h, rfl⟩, le_refl _,
    fun _ _ => Iff.rfl, fun _ _ => Iff.rfl⟩

theorem trans {t u v : Pairing} (h : t.Grows u) (h' : u.Grows v) : t.Grows v where
  first_current := h'.first_current.trans h.first_current
  second_current := h'.second_current.trans h.second_current
  first_globals := h'.first_globals.trans h.first_globals
  second_globals := h'.second_globals.trans h.second_globals
  scopes_le := h.scopes_le.trans h'.scopes_le
  image i hi := (h'.image i (hi.trans_le h.scopes_le)).trans (h.image i hi)
  frames i hi := (h'.frames i (hi.trans_le h.scopes_le)).trans (h.frames i hi)
  added j hj :=
    ⟨(h'.added j (h.added j hj).1).1, (h'.added j (h.added j hj).1).2.trans (h.added j hj).2⟩
  closures_le := h.closures_le.trans h'.closures_le
  callable id hid := (h'.callable id (hid.trans_le h.closures_le)).trans (h.callable id hid)
  bindable id hid := (h'.bindable id (hid.trans_le h.closures_le)).trans (h.bindable id hid)

end Grows

theorem Stands.mono {t u : Pairing} (hg : t.Grows u) {fs : List Frame} {i j : ScopeId}
    (h : t.Stands fs i j) : u.Stands fs i j := by
  induction fs generalizing j with
  | nil => exact ⟨h.1.trans_le hg.scopes_le, h.2.1.trans (hg.image i h.1).symm,
      (hg.frames i h.1).trans h.2.2⟩
  | cons f fs ih =>
    cases f with
    | shared => exact ⟨h.1.trans_le hg.scopes_le, h.2.1.trans (hg.image i h.1).symm,
        (hg.frames i h.1).trans h.2.2⟩
    | added =>
      obtain ⟨hj, o, ho, hs⟩ := h
      exact ⟨(hg.added j hj).1, o, (hg.added j hj).2.trans ho, ih hs⟩

theorem At.mono {t u : Pairing} (hg : t.Grows u) {fs : List Frame} (h : t.At fs) : u.At fs := by
  rw [At, hg.first_current, hg.second_current]
  exact Stands.mono hg h

theorem Stands.lt {t : Pairing} {fs : List Frame} {i j : ScopeId} (h : t.Stands fs i j) :
    i < t.first.store.scopes.size := by
  induction fs generalizing j with
  | nil => exact h.1
  | cons f fs ih =>
    cases f with
    | shared => exact h.1
    | added =>
      obtain ⟨-, o, -, hs⟩ := h
      exact ih hs

end Pairing

/-- An operation that a value refers to can be called. -/
def Value.Usable (t : Pairing) : Value → Prop
  | .operation id => id < t.first.store.closures.size ∧ t.callable id
  | _ => True

theorem Value.Usable.mono {t u : Pairing} (hg : t.Grows u) {v : Value} (h : v.Usable t) :
    v.Usable u := by
  cases v with
  | operation id => exact ⟨h.1.trans_le hg.closures_le, (hg.callable id h.1).2 h.2⟩
  | _ => trivial

theorem Value.IsConstant.usable {v : Value} (h : v.IsConstant) (t : Pairing) : v.Usable t := by
  cases v with
  | operation => exact h.elim
  | _ => trivial

/-- The operations with one number, of which the second is a revision of the first. -/
structure Closure.Pairs (L : Licence) (t : Pairing) (id : Nat) (c c' : Closure) : Prop where
  name : c'.declaration.name = c.declaration.name
  arity : c'.arity = c.arity
  isPilot : c'.isPilot = c.isPilot
  lt : c.scope < t.first.store.scopes.size
  scope : c'.scope = t.image c.scope
  callable : t.callable id → c.declaration.Revises L (t.frames c.scope) c'.declaration
  bindable : t.bindable id →
    c.declaration.Revises L (.shared (Equiv.refl String) :: t.frames c.scope) c'.declaration

theorem Closure.Pairs.mono {L : Licence} {t u : Pairing} (hg : t.Grows u) {id : Nat}
    {c c' : Closure} (h : c.Pairs L t id c') (hid : id < t.first.store.closures.size) :
    c.Pairs L u id c' where
  name := h.name
  arity := h.arity
  isPilot := h.isPilot
  lt := h.lt.trans_le hg.scopes_le
  scope := h.scope.trans (hg.image _ h.lt).symm
  callable hc := by
    rw [hg.frames _ h.lt]
    exact h.callable ((hg.callable id hid).1 hc)
  bindable hb := by
    rw [hg.frames _ h.lt]
    exact h.bindable ((hg.bindable id hid).1 hb)

section

variable (L : Licence)

/-- The scopes of the two machines correspond. -/
structure Pairing.Aligned (t : Pairing) : Prop where
  image_lt : ∀ i < t.first.store.scopes.size, t.image i < t.second.store.scopes.size
  image_inj : ∀ i < t.first.store.scopes.size, ∀ j < t.first.store.scopes.size,
    t.image i = t.image j → i = j
  names : ∀ i < t.first.store.scopes.size,
    (Frame.here? (t.frames i)).isSome ∧ Frame.Licensed L (t.frames i)
  get : ∀ i < t.first.store.scopes.size, ∀ x,
    t.second.store.scopes.get? (t.image i) (Frame.naming (t.frames i) 0 x) =
      t.first.store.scopes.get? i x
  outer_none : ∀ i < t.first.store.scopes.size, t.first.store.scopes.outer? i = none →
    t.second.store.scopes.outer? (t.image i) = none
  outer_some : ∀ i < t.first.store.scopes.size, ∀ o, t.first.store.scopes.outer? i = some o →
    ∃ o', t.second.store.scopes.outer? (t.image i) = some o' ∧ t.Stands (t.frames i).tail o o'
  added_lt : ∀ j, t.added j → j < t.second.store.scopes.size
  added_image : ∀ j, t.added j → ∀ i < t.first.store.scopes.size, t.image i ≠ j
  added_get : ∀ j, t.added j → ∀ x, t.second.store.scopes.get? j x = none
  globals : t.Stands [] t.first.globals t.second.globals

structure Pairing.Sound (t : Pairing) : Prop where
  aligned : t.Aligned L
  values : ∀ i x v, t.first.store.scopes.get? i x = some v → v.Usable t
  fields : ∀ fields ∈ t.first.store.holders, ∀ x v, fields.get? x = some v → v.Usable t
  members : ∀ type ∈ t.first.store.forms, ∀ x v, type.members.get? x = some v → v.Usable t
  methods : ∀ type ∈ t.first.store.objects, ∀ x id, type.methods.get? x = some id →
    id < t.first.store.closures.size ∧ t.bindable id
  closures_size : t.second.store.closures.size = t.first.store.closures.size
  closures : ∀ id (c c' : Closure), t.first.store.closures[id]? = some c →
    t.second.store.closures[id]? = some c' → c.Pairs L t id c'
  objects : t.second.store.objects = t.first.store.objects
  enums : t.second.store.enums = t.first.store.enums
  forms : t.second.store.forms = t.first.store.forms
  holders : t.second.store.holders = t.first.store.holders
  clock : t.second.clock = t.first.clock
  events : t.second.events = t.first.events

end

variable {L : Licence} {t u : Pairing}

theorem Scopes.get?_eq_none_of_size_le {α : Type} (ss : Scopes α) {i : ScopeId}
    (h : ss.size ≤ i) (x : String) : ss.get? i x = none := by
  cases hv : ss.get? i x with
  | none => rfl
  | some v => exact absurd (ss.lt_size_of_get?_eq_some hv) (Nat.not_lt.2 h)

theorem Scopes.resolve?_eq {α : Type} (ss : Scopes α) (i : ScopeId) (x : String) :
    ss.resolve? i x = (ss.get? i x).or ((ss.outer? i).bind (ss.resolve? · x)) := by
  rw [Scopes.resolve?]
  cases ss.get? i x with
  | some v => rfl
  | none =>
    dsimp only
    split
    · next ho => rw [ho]; rfl
    · next o ho => rw [ho]; rfl

namespace Pairing

theorem Aligned.outer (h : t.Aligned L) {fs : List Frame} (hhere : (Frame.here? fs).isSome)
    {i j : ScopeId} (hs : t.Stands fs i j) :
    (t.first.store.scopes.outer? i = none ∧ t.second.store.scopes.outer? j = none) ∨
    ∃ o o', t.first.store.scopes.outer? i = some o ∧ t.second.store.scopes.outer? j = some o' ∧
      t.Stands fs.tail o o' := by
  obtain ⟨hi, rfl, rfl⟩ := (stands_iff hhere).1 hs
  cases ho : t.first.store.scopes.outer? i with
  | none => exact .inl ⟨rfl, h.outer_none i hi ho⟩
  | some o =>
    obtain ⟨o', ho', hstands⟩ := h.outer_some i hi o ho
    exact .inr ⟨o, o', rfl, ho', hstands⟩

/-- What is around a scope of the first machine has a counterpart, past the added scopes. -/
theorem Aligned.ancestor (h : t.Aligned L) {fs : List Frame} {i j : ScopeId}
    (hs : t.Stands fs i j) (k : Nat) :
    (t.first.store.scopes.ancestor? k i = none ∧
      t.second.store.scopes.ancestor? (Frame.shift fs k) j = none) ∨
    ∃ a, t.first.store.scopes.ancestor? k i = some a ∧ a < t.first.store.scopes.size ∧
      t.second.store.scopes.ancestor? (Frame.shift fs k) j = some (t.image a) ∧
      Frame.naming (t.frames a) 0 = Frame.naming fs k := by
  induction k generalizing fs i j with
  | zero =>
    induction fs generalizing j with
    | nil => exact .inr ⟨i, rfl, hs.1, congrArg some hs.2.1, by rw [hs.2.2]⟩
    | cons f fs ih =>
      cases f with
      | shared => exact .inr ⟨i, rfl, hs.1, congrArg some hs.2.1, by rw [hs.2.2]⟩
      | added =>
        obtain ⟨-, o, ho, hs⟩ := hs
        rw [Frame.shift, Scopes.ancestor?_succ ho]
        exact ih hs
  | succ k ihk =>
    induction fs generalizing j with
    | nil =>
      rcases h.outer rfl hs with ⟨ho, ho'⟩ | ⟨o, o', ho, ho', hstands⟩
      · exact .inl ⟨by rw [Scopes.ancestor?, ho]; rfl, by
          rw [Frame.shift, Scopes.ancestor?, ho']; rfl⟩
      · rw [Scopes.ancestor?_succ ho, Frame.shift, Scopes.ancestor?_succ ho']
        exact ihk hstands
    | cons f fs ih =>
      cases f with
      | shared names =>
        rcases h.outer rfl hs with ⟨ho, ho'⟩ | ⟨o, o', ho, ho', hstands⟩
        · exact .inl ⟨by rw [Scopes.ancestor?, ho]; rfl, by
            rw [Frame.shift, Scopes.ancestor?, ho']; rfl⟩
        · rw [Scopes.ancestor?_succ ho, Frame.shift, Scopes.ancestor?_succ ho']
          exact ihk hstands
      | added =>
        obtain ⟨-, o, ho, hs⟩ := hs
        rw [Frame.shift, Scopes.ancestor?_succ ho]
        exact ih hs

theorem Aligned.get_here (h : t.Aligned L) {fs : List Frame} {names : Equiv.Perm String}
    (hhere : Frame.here? fs = some names) {i j : ScopeId} (hs : t.Stands fs i j) (x : String) :
    t.second.store.scopes.get? j (names x) = t.first.store.scopes.get? i x := by
  obtain ⟨hi, rfl, hframes⟩ := (stands_iff (hhere ▸ rfl)).1 hs
  rw [← Frame.naming_zero hhere, ← hframes]
  exact h.get i hi x

/-- Where no name has changed, a search from scope to scope finds the same. -/
theorem Aligned.resolve (h : t.Aligned L) {fs : List Frame}
    (hnames : ∀ names, .shared names ∈ fs → names = Equiv.refl String) {i j : ScopeId}
    (hs : t.Stands fs i j) (x : String) :
    t.second.store.scopes.resolve? j x = t.first.store.scopes.resolve? i x := by
  induction j using Nat.strongRecOn generalizing fs i with
  | ind j ih =>
    -- an original scope binds the same, and the search goes on from the outer scopes
    have hshared : Frame.here? fs = some (Equiv.refl String) →
        t.second.store.scopes.resolve? j x = t.first.store.scopes.resolve? i x := by
      intro hhere
      rw [Scopes.resolve?_eq, Scopes.resolve?_eq]
      have hget := h.get_here hhere hs x
      rw [Equiv.refl_apply] at hget
      rw [hget]
      rcases h.outer (hhere ▸ rfl) hs with ⟨ho, ho'⟩ | ⟨o, o', ho, ho', hstands⟩
      · rw [ho, ho']
        rfl
      · rw [ho, ho', Option.bind_some, Option.bind_some, ih o' (Scopes.outer?_lt ho')
          (fun names hn => hnames names (List.mem_of_mem_tail hn)) hstands]
    match fs with
    | [] => exact hshared rfl
    | .shared names :: _ => exact hshared (congrArg some (hnames names List.mem_cons_self))
    | .added :: fs =>
      obtain ⟨hj, o, ho, hstands⟩ := hs
      rw [Scopes.resolve?_eq, h.added_get j hj, ho]
      exact ih o (Scopes.outer?_lt ho) (fun names hn => hnames names (List.mem_cons_of_mem _ hn))
        hstands

section define

/-- Binds a name of a scope of the first machine, and its new name in the counterpart. -/
def define (t : Pairing) (i : ScopeId) (x : String) (v : Value) : Pairing :=
  { t with
    first := { t.first with store := t.first.store.define i x v }
    second := { t.second with
      store := t.second.store.define (t.image i) (Frame.naming (t.frames i) 0 x) v } }

theorem grows_define (t : Pairing) (i : ScopeId) (x : String) (v : Value) :
    t.Grows (t.define i x v) :=
  ⟨rfl, rfl, rfl, rfl, (Scopes.size_define ..).ge, fun _ _ => rfl, fun _ _ => rfl,
    fun _ h => ⟨h, Scopes.outer?_define ..⟩, le_refl _, fun _ _ => Iff.rfl, fun _ _ => Iff.rfl⟩

theorem Aligned.define (h : t.Aligned L) {i : ScopeId} (hi : i < t.first.store.scopes.size)
    (x : String) (v : Value) : (t.define i x v).Aligned L := by
  have hg := t.grows_define i x v
  have hsize : (t.define i x v).first.store.scopes.size = t.first.store.scopes.size :=
    Scopes.size_define ..
  have hsize' : (t.define i x v).second.store.scopes.size = t.second.store.scopes.size :=
    Scopes.size_define ..
  have hget : ∀ j y, (t.define i x v).first.store.scopes.get? j y =
      if j = i ∧ y = x ∧ i < t.first.store.scopes.size then some v
      else t.first.store.scopes.get? j y := fun j y => Scopes.get?_define ..
  have hget' : ∀ j y, (t.define i x v).second.store.scopes.get? j y =
      if j = t.image i ∧ y = Frame.naming (t.frames i) 0 x ∧
        t.image i < t.second.store.scopes.size then some v
      else t.second.store.scopes.get? j y := fun j y => Scopes.get?_define ..
  constructor
  case image_lt =>
    intro j hj
    rw [hsize] at hj
    rw [hsize']
    exact h.image_lt j hj
  case image_inj =>
    rw [hsize]
    exact h.image_inj
  case names =>
    rw [hsize]
    exact h.names
  case get =>
    intro j hj y
    rw [hsize] at hj
    rw [hget, hget']
    by_cases hji : j = i
    · subst hji
      by_cases hyx : y = x
      · simp [hyx, hj, h.image_lt j hj, Pairing.define]
      · simp only [hyx, false_and, and_false, if_false]
        rw [if_neg fun hc => hyx (Equiv.injective _ hc.2.1)]
        exact h.get j hj y
    · rw [if_neg fun hc => hji (h.image_inj j hj i hi hc.1), if_neg fun hc => hji hc.1]
      exact h.get j hj y
  case outer_none =>
    intro j hj ho
    rw [hsize] at hj
    rw [show (t.define i x v).first.store.scopes.outer? j = _ from Scopes.outer?_define ..] at ho
    rw [show (t.define i x v).second.store.scopes.outer? _ = _ from Scopes.outer?_define ..]
    exact h.outer_none j hj ho
  case outer_some =>
    intro j hj o ho
    rw [hsize] at hj
    rw [show (t.define i x v).first.store.scopes.outer? j = _ from Scopes.outer?_define ..] at ho
    rw [show (t.define i x v).second.store.scopes.outer? _ = _ from Scopes.outer?_define ..]
    obtain ⟨o', ho', hs⟩ := h.outer_some j hj o ho
    exact ⟨o', ho', hs.mono hg⟩
  case added_lt =>
    intro j hj
    rw [hsize']
    exact h.added_lt j hj
  case added_image =>
    intro j hj k hk
    rw [hsize] at hk
    exact h.added_image j hj k hk
  case added_get =>
    intro j hj y
    rw [hget', if_neg fun hc => h.added_image j hj i hi hc.1.symm]
    exact h.added_get j hj y
  case globals => exact h.globals.mono hg

theorem Sound.define (h : t.Sound L) {i : ScopeId} (hi : i < t.first.store.scopes.size)
    (x : String) {v : Value} (hv : v.Usable t) : (t.define i x v).Sound L := by
  have hg := t.grows_define i x v
  refine ⟨h.aligned.define hi x v, ?values, ?fields, ?members, h.methods, h.closures_size,
    ?closures, h.objects, h.enums, h.forms, h.holders, h.clock, h.events⟩
  case values =>
    intro j y u hu
    rcases Scopes.get?_define_cases _ hu with ⟨-, -, rfl⟩ | hu
    · exact hv.mono hg
    · exact (h.values j y u hu).mono hg
  case fields => exact fun fields hf y u hu => (h.fields fields hf y u hu).mono hg
  case members => exact fun type ht y u hu => (h.members type ht y u hu).mono hg
  case closures =>
    intro id c c' hc hc'
    exact (h.closures id c c' hc hc').mono hg (Array.getElem?_eq_some_iff.1 hc).1

end define

section enter

/-- A new scope of both machines. -/
def enter (t : Pairing) (names : Equiv.Perm String) (fs : List Frame) (i j : ScopeId) : Pairing :=
  { t with
    first := { t.first with store := (t.first.store.enterScope i).1 }
    second := { t.second with store := (t.second.store.enterScope j).1 }
    image := fun k =>
      if k = t.first.store.scopes.size then t.second.store.scopes.size else t.image k
    frames := fun k => if k = t.first.store.scopes.size then .shared names :: fs else t.frames k }

/-- A new scope of the second machine only. -/
def enterAdded (t : Pairing) (j : ScopeId) : Pairing :=
  { t with
    second := { t.second with store := (t.second.store.enterScope j).1 }
    added := fun k => k = t.second.store.scopes.size ∨ t.added k }

theorem Aligned.ne_size_of_added (h : t.Aligned L) {j : ScopeId} (hj : t.added j) :
    j ≠ t.second.store.scopes.size := Nat.ne_of_lt (h.added_lt j hj)

theorem grows_enter (h : t.Aligned L) (names : Equiv.Perm String) (fs : List Frame)
    (i j : ScopeId) : t.Grows (t.enter names fs i j) :=
  ⟨rfl, rfl, rfl, rfl, (Scopes.size_push ..).symm ▸ Nat.le_succ _,
    fun _ hk => if_neg (Nat.ne_of_lt hk), fun _ hk => if_neg (Nat.ne_of_lt hk),
    fun k hk => ⟨hk, Scopes.outer?_push_of_lt _ (h.added_lt k hk) _⟩, le_refl _,
    fun _ _ => Iff.rfl, fun _ _ => Iff.rfl⟩

theorem grows_enterAdded (h : t.Aligned L) (j : ScopeId) : t.Grows (t.enterAdded j) :=
  ⟨rfl, rfl, rfl, rfl, le_refl _, fun _ _ => rfl, fun _ _ => rfl,
    fun k hk => ⟨.inr hk, Scopes.outer?_push_of_lt _ (h.added_lt k hk) _⟩, le_refl _,
    fun _ _ => Iff.rfl, fun _ _ => Iff.rfl⟩

theorem Stands.lt_second (h : t.Aligned L) {fs : List Frame} {i j : ScopeId}
    (hs : t.Stands fs i j) : j < t.second.store.scopes.size := by
  match fs with
  | [] => exact hs.2.1 ▸ h.image_lt i hs.1
  | .shared _ :: _ => exact hs.2.1 ▸ h.image_lt i hs.1
  | .added :: _ => exact h.added_lt j hs.1

theorem Stands.licensed (h : t.Aligned L) {fs : List Frame} {i j : ScopeId}
    (hs : t.Stands fs i j) : Frame.Licensed L fs := by
  induction fs generalizing j with
  | nil => exact hs.2.2 ▸ (h.names i hs.1).2
  | cons f fs ih =>
    cases f with
    | shared => exact hs.2.2 ▸ (h.names i hs.1).2
    | added =>
      obtain ⟨-, o, -, hs⟩ := hs
      exact (ih hs).cons_added

theorem stands_enter (t : Pairing) (names : Equiv.Perm String) (fs : List Frame) (i j : ScopeId) :
    (t.enter names fs i j).Stands (.shared names :: fs) t.first.store.scopes.size
      t.second.store.scopes.size :=
  ⟨(Scopes.size_push ..).symm ▸ Nat.lt_succ_self _, (if_pos rfl).symm, if_pos rfl⟩

theorem stands_enterAdded (h : t.Aligned L) {fs : List Frame} {i j : ScopeId}
    (hs : t.Stands fs i j) :
    (t.enterAdded j).Stands (.added :: fs) i t.second.store.scopes.size :=
  ⟨.inl rfl, j, Scopes.outer?_push_size _ (hs.lt_second h), hs.mono (grows_enterAdded h j)⟩

theorem Aligned.enter (h : t.Aligned L) {names : Equiv.Perm String} (hr : L.renames names)
    {fs : List Frame} {i j : ScopeId} (hs : t.Stands fs i j) :
    (t.enter names fs i j).Aligned L := by
  have hg := grows_enter h names fs i j
  have hsize : (t.enter names fs i j).first.store.scopes.size = t.first.store.scopes.size + 1 :=
    Scopes.size_push ..
  have hsize' : (t.enter names fs i j).second.store.scopes.size = t.second.store.scopes.size + 1 :=
    Scopes.size_push ..
  have hget : ∀ k y, (t.enter names fs i j).first.store.scopes.get? k y =
      t.first.store.scopes.get? k y := fun k y => Scopes.get?_push ..
  have hget' : ∀ k y, (t.enter names fs i j).second.store.scopes.get? k y =
      t.second.store.scopes.get? k y := fun k y => Scopes.get?_push ..
  have hnew : (t.enter names fs i j).image t.first.store.scopes.size =
      t.second.store.scopes.size := if_pos rfl
  have hframes : (t.enter names fs i j).frames t.first.store.scopes.size = .shared names :: fs :=
    if_pos rfl
  -- every scope is the new one or was there before
  have hcases : ∀ k < (t.enter names fs i j).first.store.scopes.size,
      k = t.first.store.scopes.size ∨ k < t.first.store.scopes.size := by
    intro k hk
    rw [hsize] at hk
    omega
  constructor
  case image_lt =>
    intro k hk
    rw [hsize']
    rcases hcases k hk with rfl | hk
    · rw [hnew]
      exact Nat.lt_succ_self _
    · rw [hg.image k hk]
      exact (h.image_lt k hk).trans (Nat.lt_succ_self _)
  case image_inj =>
    intro k hk l hl heq
    rcases hcases k hk with rfl | hk <;> rcases hcases l hl with rfl | hl
    · rfl
    · rw [hnew, hg.image l hl] at heq
      exact absurd heq.symm (Nat.ne_of_lt (h.image_lt l hl))
    · rw [hnew, hg.image k hk] at heq
      exact absurd heq (Nat.ne_of_lt (h.image_lt k hk))
    · rw [hg.image k hk, hg.image l hl] at heq
      exact h.image_inj k hk l hl heq
  case names =>
    intro k hk
    rcases hcases k hk with rfl | hk
    · rw [hframes]
      exact ⟨rfl, (hs.licensed h).cons hr⟩
    · rw [hg.frames k hk]
      exact h.names k hk
  case get =>
    intro k hk y
    rw [hget, hget']
    rcases hcases k hk with rfl | hk
    · rw [hnew, Scopes.get?_eq_none_of_size_le _ (le_refl _),
        Scopes.get?_eq_none_of_size_le _ (le_refl _)]
    · rw [hg.image k hk, hg.frames k hk]
      exact h.get k hk y
  case outer_none =>
    intro k hk ho
    rcases hcases k hk with rfl | hk
    · rw [show (t.enter names fs i j).first.store.scopes.outer? _ = some i from
        Scopes.outer?_push_size _ hs.lt] at ho
      cases ho
    · rw [show (t.enter names fs i j).first.store.scopes.outer? k = _ from
        Scopes.outer?_push_of_lt _ hk _] at ho
      rw [hg.image k hk, show (t.enter names fs i j).second.store.scopes.outer? _ = _ from
        Scopes.outer?_push_of_lt _ (h.image_lt k hk) _]
      exact h.outer_none k hk ho
  case outer_some =>
    intro k hk o ho
    rcases hcases k hk with rfl | hk
    · rw [show (t.enter names fs i j).first.store.scopes.outer? _ = some i from
        Scopes.outer?_push_size _ hs.lt] at ho
      obtain rfl := Option.some.inj ho
      rw [hnew, hframes]
      exact ⟨j, Scopes.outer?_push_size _ (hs.lt_second h), hs.mono hg⟩
    · rw [show (t.enter names fs i j).first.store.scopes.outer? k = _ from
        Scopes.outer?_push_of_lt _ hk _] at ho
      obtain ⟨o', ho', hstands⟩ := h.outer_some k hk o ho
      rw [hg.image k hk, hg.frames k hk]
      exact ⟨o', (Scopes.outer?_push_of_lt _ (h.image_lt k hk) _).trans ho', hstands.mono hg⟩
  case added_lt =>
    intro k hk
    rw [hsize']
    exact (h.added_lt k hk).trans (Nat.lt_succ_self _)
  case added_image =>
    intro k hk l hl
    rcases hcases l hl with rfl | hl
    · rw [hnew]
      exact (h.ne_size_of_added hk).symm
    · rw [hg.image l hl]
      exact h.added_image k hk l hl
  case added_get =>
    intro k hk y
    rw [hget']
    exact h.added_get k hk y
  case globals => exact h.globals.mono hg

theorem Aligned.enterAdded (h : t.Aligned L) (j : ScopeId) : (t.enterAdded j).Aligned L := by
  have hg := grows_enterAdded h j
  have hsize' : (t.enterAdded j).second.store.scopes.size = t.second.store.scopes.size + 1 :=
    Scopes.size_push ..
  have hget' : ∀ k y, (t.enterAdded j).second.store.scopes.get? k y =
      t.second.store.scopes.get? k y := fun k y => Scopes.get?_push ..
  have houter' : ∀ k < t.first.store.scopes.size,
      (t.enterAdded j).second.store.scopes.outer? (t.image k) =
        t.second.store.scopes.outer? (t.image k) :=
    fun k hk => Scopes.outer?_push_of_lt _ (h.image_lt k hk) _
  constructor
  case image_lt =>
    intro k hk
    rw [hsize']
    exact (h.image_lt k hk).trans (Nat.lt_succ_self _)
  case image_inj => exact h.image_inj
  case names => exact h.names
  case get =>
    intro k hk y
    rw [hget']
    exact h.get k hk y
  case outer_none =>
    intro k hk ho
    exact (houter' k hk).trans (h.outer_none k hk ho)
  case outer_some =>
    intro k hk o ho
    obtain ⟨o', ho', hs⟩ := h.outer_some k hk o ho
    exact ⟨o', (houter' k hk).trans ho', hs.mono hg⟩
  case added_lt =>
    rintro k (rfl | hk)
    · rw [hsize']
      exact Nat.lt_succ_self _
    · rw [hsize']
      exact (h.added_lt k hk).trans (Nat.lt_succ_self _)
  case added_image =>
    rintro k (rfl | hk) l hl
    · exact Nat.ne_of_lt (h.image_lt l hl)
    · exact h.added_image k hk l hl
  case added_get =>
    rintro k (rfl | hk) y
    · rw [hget']
      exact Scopes.get?_eq_none_of_size_le _ (le_refl _) y
    · rw [hget']
      exact h.added_get k hk y
  case globals => exact h.globals.mono hg

/-- A step that changes scopes only, and binds nothing. -/
theorem Sound.of_aligned (h : t.Sound L) (ha : u.Aligned L) (hg : t.Grows u)
    (hget : ∀ i x, u.first.store.scopes.get? i x = t.first.store.scopes.get? i x)
    (hfirst : u.first = { t.first with store := { t.first.store with
      scopes := u.first.store.scopes } })
    (hsecond : u.second = { t.second with store := { t.second.store with
      scopes := u.second.store.scopes } }) : u.Sound L := by
  have hstore : u.first.store = { t.first.store with scopes := u.first.store.scopes } :=
    congrArg Machine.store hfirst
  have hstore' : u.second.store = { t.second.store with scopes := u.second.store.scopes } :=
    congrArg Machine.store hsecond
  refine ⟨ha, ?values, ?fields, ?members, ?methods, ?closures_size, ?closures, ?objects, ?enums,
    ?forms, ?holders, ?clock, ?events⟩
  case values =>
    intro i x v hv
    rw [hget] at hv
    exact (h.values i x v hv).mono hg
  case fields =>
    rw [hstore]
    exact fun fields hf x v hv => (h.fields fields hf x v hv).mono hg
  case members =>
    rw [hstore]
    exact fun type ht x v hv => (h.members type ht x v hv).mono hg
  case methods =>
    rw [show u.first.store.objects = t.first.store.objects by rw [hstore],
      show u.first.store.closures = t.first.store.closures by rw [hstore]]
    intro type ht x id hid
    obtain ⟨hlt, hb⟩ := h.methods type ht x id hid
    exact ⟨hlt, (hg.bindable id hlt).2 hb⟩
  case closures_size =>
    rw [hstore, hstore']
    exact h.closures_size
  case closures =>
    rw [show u.first.store.closures = t.first.store.closures by rw [hstore],
      show u.second.store.closures = t.second.store.closures by rw [hstore']]
    intro id c c' hc hc'
    exact (h.closures id c c' hc hc').mono hg (Array.getElem?_eq_some_iff.1 hc).1
  case objects =>
    rw [hstore, hstore']
    exact h.objects
  case enums =>
    rw [hstore, hstore']
    exact h.enums
  case forms =>
    rw [hstore, hstore']
    exact h.forms
  case holders =>
    rw [hstore, hstore']
    exact h.holders
  case clock =>
    rw [hfirst, hsecond]
    exact h.clock
  case events =>
    rw [hfirst, hsecond]
    exact h.events

theorem Sound.enter (h : t.Sound L) {names : Equiv.Perm String} (hr : L.renames names)
    {fs : List Frame} {i j : ScopeId} (hs : t.Stands fs i j) : (t.enter names fs i j).Sound L :=
  h.of_aligned (h.aligned.enter hr hs) (grows_enter h.aligned ..) (fun _ _ => Scopes.get?_push ..)
    rfl rfl

theorem Sound.enterAdded (h : t.Sound L) (j : ScopeId) : (t.enterAdded j).Sound L :=
  h.of_aligned (h.aligned.enterAdded j) (grows_enterAdded h.aligned j) (fun _ _ => rfl) rfl rfl

end enter

section addClosure

/-- An operation of both machines, ready to be called or else a method. -/
def addClosure (t : Pairing) (c c' : Closure) (ready : Bool) : Pairing :=
  { t with
    first := { t.first with store := (t.first.store.addClosure c).1 }
    second := { t.second with store := (t.second.store.addClosure c').1 }
    callable := fun id => if id = t.first.store.closures.size then ready = true else t.callable id
    bindable := fun id =>
      if id = t.first.store.closures.size then ready = false else t.bindable id }

theorem grows_addClosure (t : Pairing) (c c' : Closure) (ready : Bool) :
    t.Grows (t.addClosure c c' ready) :=
  ⟨rfl, rfl, rfl, rfl, le_refl _, fun _ _ => rfl, fun _ _ => rfl, fun _ h => ⟨h, rfl⟩,
    (Array.size_push c).symm ▸ Nat.le_succ _,
    fun _ hid => iff_of_eq (if_neg (Nat.ne_of_lt hid)),
    fun _ hid => iff_of_eq (if_neg (Nat.ne_of_lt hid))⟩

theorem callable_addClosure (t : Pairing) (c c' : Closure) :
    (Value.operation t.first.store.closures.size).Usable (t.addClosure c c' true) :=
  ⟨(Array.size_push c).symm ▸ Nat.lt_succ_self _, (if_pos rfl).mpr rfl⟩

theorem bindable_addClosure (t : Pairing) (c c' : Closure) :
    t.first.store.closures.size < (t.addClosure c c' false).first.store.closures.size ∧
      (t.addClosure c c' false).bindable t.first.store.closures.size :=
  ⟨(Array.size_push c).symm ▸ Nat.lt_succ_self _, (if_pos rfl).mpr rfl⟩

/-- The frames around the body of an operation, with those of `self` if it is still to be bound. -/
def around (t : Pairing) (c : Closure) (ready : Bool) : List Frame :=
  if ready then t.frames c.scope else .shared (Equiv.refl String) :: t.frames c.scope

theorem Aligned.addClosure (h : t.Aligned L) (c c' : Closure) (ready : Bool) :
    (t.addClosure c c' ready).Aligned L := by
  have hg := t.grows_addClosure c c' ready
  refine ⟨h.image_lt, h.image_inj, h.names, h.get, h.outer_none, ?_, h.added_lt, h.added_image,
    h.added_get, h.globals.mono hg⟩
  intro i hi o ho
  obtain ⟨o', ho', hs⟩ := h.outer_some i hi o ho
  exact ⟨o', ho', hs.mono hg⟩

theorem Sound.addClosure (h : t.Sound L) {c c' : Closure} {ready : Bool}
    (hscope : c.scope < t.first.store.scopes.size) (hscope' : c'.scope = t.image c.scope)
    (hpilot : c'.isPilot = c.isPilot)
    (hr : c.declaration.Revises L (t.around c ready) c'.declaration) :
    (t.addClosure c c' ready).Sound L := by
  have hg := t.grows_addClosure c c' ready
  refine ⟨h.aligned.addClosure c c' ready, ?values, ?fields, ?members, ?methods, ?closures_size,
    ?closures, h.objects, h.enums, h.forms, h.holders, h.clock, h.events⟩
  case values => exact fun i x v hv => (h.values i x v hv).mono hg
  case fields => exact fun fields hf x v hv => (h.fields fields hf x v hv).mono hg
  case members => exact fun type ht x v hv => (h.members type ht x v hv).mono hg
  case methods =>
    intro type ht x id hid
    obtain ⟨hlt, hb⟩ := h.methods type ht x id hid
    exact ⟨hlt.trans_le hg.closures_le, (hg.bindable id hlt).2 hb⟩
  case closures_size =>
    exact ((Array.size_push c').trans (congrArg (· + 1) h.closures_size)).trans
      (Array.size_push c).symm
  case closures =>
    intro id d d' hd hd'
    rw [show (t.addClosure c c' ready).first.store.closures = t.first.store.closures.push c
      from rfl, Array.getElem?_push] at hd
    rw [show (t.addClosure c c' ready).second.store.closures = t.second.store.closures.push c'
      from rfl, Array.getElem?_push, h.closures_size] at hd'
    by_cases hid : id = t.first.store.closures.size
    · rw [if_pos hid] at hd hd'
      obtain rfl := Option.some.inj hd
      obtain rfl := Option.some.inj hd'
      -- being ready or not decides between the two kinds of operations
      refine ⟨hr.name_eq, hr.arity_eq, hpilot, hscope, hscope', fun hcall => ?_, fun hbind => ?_⟩
      · obtain rfl : ready = true := (if_pos hid).mp hcall
        exact hr
      · obtain rfl : ready = false := (if_pos hid).mp hbind
        exact hr
    · rw [if_neg hid] at hd hd'
      exact (h.closures id d d' hd hd').mono hg (Array.getElem?_eq_some_iff.1 hd).1

end addClosure

section replace

/-- A step that changes neither scopes nor operations, nor where the machines are. -/
structure Keeps (t : Pairing) (m m' : Machine) : Prop where
  scopes : m.store.scopes = t.first.store.scopes
  scopes' : m'.store.scopes = t.second.store.scopes
  closures : m.store.closures = t.first.store.closures
  closures' : m'.store.closures = t.second.store.closures
  globals : m.globals = t.first.globals
  globals' : m'.globals = t.second.globals
  current : m.current = t.first.current
  current' : m'.current = t.second.current

def replace (t : Pairing) (m m' : Machine) : Pairing := { t with first := m, second := m' }

variable {m m' : Machine}

theorem Keeps.grows (h : t.Keeps m m') : t.Grows (t.replace m m') :=
  ⟨h.current, h.current', h.globals, h.globals', (congrArg Scopes.size h.scopes).ge,
    fun _ _ => rfl, fun _ _ => rfl, fun j hj => ⟨hj, congrArg (Scopes.outer? · j) h.scopes'⟩,
    (congrArg Array.size h.closures).ge, fun _ _ => Iff.rfl, fun _ _ => Iff.rfl⟩

theorem Aligned.replace (ha : t.Aligned L) (h : t.Keeps m m') : (t.replace m m').Aligned L := by
  have hg := h.grows
  have hs : (t.replace m m').first.store.scopes = t.first.store.scopes := h.scopes
  have hs' : (t.replace m m').second.store.scopes = t.second.store.scopes := h.scopes'
  constructor
  case image_lt =>
    rw [hs, hs']
    exact ha.image_lt
  case image_inj =>
    rw [hs]
    exact ha.image_inj
  case names =>
    rw [hs]
    exact ha.names
  case get =>
    rw [hs, hs']
    exact ha.get
  case outer_none =>
    rw [hs, hs']
    exact ha.outer_none
  case outer_some =>
    rw [hs, hs']
    intro i hi o ho
    obtain ⟨o', ho', hstands⟩ := ha.outer_some i hi o ho
    exact ⟨o', ho', hstands.mono hg⟩
  case added_lt =>
    rw [hs']
    exact ha.added_lt
  case added_image =>
    rw [hs]
    exact ha.added_image
  case added_get =>
    rw [hs']
    exact ha.added_get
  case globals =>
    have hglobals := ha.globals.mono hg
    rwa [← h.globals, ← h.globals'] at hglobals

theorem Sound.replace (hs : t.Sound L) (h : t.Keeps m m')
    (hfields : ∀ fields ∈ m.store.holders, ∀ x v, fields.get? x = some v → v.Usable t)
    (hmembers : ∀ type ∈ m.store.forms, ∀ x v, type.members.get? x = some v → v.Usable t)
    (hmethods : ∀ type ∈ m.store.objects, ∀ x id, type.methods.get? x = some id →
      id < t.first.store.closures.size ∧ t.bindable id)
    (hrest : m'.store.objects = m.store.objects ∧ m'.store.enums = m.store.enums ∧
      m'.store.forms = m.store.forms ∧ m'.store.holders = m.store.holders ∧ m'.clock = m.clock ∧
      m'.events = m.events) : (t.replace m m').Sound L := by
  have hg := h.grows
  have hc : (t.replace m m').first.store.closures = t.first.store.closures := h.closures
  have hc' : (t.replace m m').second.store.closures = t.second.store.closures := h.closures'
  obtain ⟨hobjects, henums, hforms, hholders, hclock, hevents⟩ := hrest
  refine ⟨hs.aligned.replace h, ?values, ?fields, ?members, ?methods, ?closures_size, ?closures,
    hobjects, henums, hforms, hholders, hclock, hevents⟩
  case values =>
    intro i x v hv
    rw [show (t.replace m m').first.store.scopes = t.first.store.scopes from h.scopes] at hv
    exact (hs.values i x v hv).mono hg
  case fields => exact fun fields hf x v hv => (hfields fields hf x v hv).mono hg
  case members => exact fun type ht x v hv => (hmembers type ht x v hv).mono hg
  case methods =>
    rw [hc]
    exact hmethods
  case closures_size =>
    rw [hc, hc']
    exact hs.closures_size
  case closures =>
    rw [hc, hc']
    intro id c c' hid hid'
    exact (hs.closures id c c' hid hid').mono hg (Array.getElem?_eq_some_iff.1 hid).1

end replace

section moveTo

/-- The machines at another pair of scopes. -/
def moveTo (t : Pairing) (i j : ScopeId) : Pairing :=
  { t with first := { t.first with current := i }, second := { t.second with current := j } }

theorem Stands.moveTo {fs : List Frame} {k l : ScopeId} (h : t.Stands fs k l) (i j : ScopeId) :
    (t.moveTo i j).Stands fs k l := by
  induction fs generalizing l with
  | nil => exact h
  | cons f fs ih =>
    cases f with
    | shared => exact h
    | added =>
      obtain ⟨hl, o, ho, hs⟩ := h
      exact ⟨hl, o, ho, ih hs⟩

theorem Sound.moveTo (h : t.Sound L) (i j : ScopeId) : (t.moveTo i j).Sound L := by
  have ha := h.aligned
  have husable : ∀ v : Value, v.Usable t → v.Usable (t.moveTo i j) := by
    intro v hv
    cases v <;> exact hv
  refine ⟨⟨ha.image_lt, ha.image_inj, ha.names, ha.get, ha.outer_none, ?outer_some, ha.added_lt,
    ha.added_image, ha.added_get, ha.globals.moveTo i j⟩, ?values, ?fields, ?members, h.methods,
    h.closures_size, ?closures, h.objects, h.enums, h.forms, h.holders, h.clock, h.events⟩
  case outer_some =>
    intro k hk o ho
    obtain ⟨o', ho', hs⟩ := ha.outer_some k hk o ho
    exact ⟨o', ho', hs.moveTo i j⟩
  case values => exact fun k x v hv => husable v (h.values k x v hv)
  case fields => exact fun fields hf x v hv => husable v (h.fields fields hf x v hv)
  case members => exact fun type ht x v hv => husable v (h.members type ht x v hv)
  case closures =>
    intro id c c' hc hc'
    exact { h.closures id c c' hc hc' with }

/-- What happens elsewhere and comes back is a step from where it began. -/
theorem Grows.moveTo {i j : ScopeId} (h : (t.moveTo i j).Grows u) :
    t.Grows (u.moveTo t.first.current t.second.current) :=
  ⟨rfl, rfl, h.first_globals, h.second_globals, h.scopes_le, h.image, h.frames, h.added,
    h.closures_le, h.callable, h.bindable⟩

end moveTo

section defineAll

/-- Binds names of a scope one after the other. -/
def defineAll (t : Pairing) (i : ScopeId) : List (String × Value) → Pairing
  | [] => t
  | entry :: rest => (t.define i entry.1 entry.2).defineAll i rest

theorem grows_defineAll (t : Pairing) (i : ScopeId) (entries : List (String × Value)) :
    t.Grows (t.defineAll i entries) := by
  induction entries generalizing t with
  | nil => exact .refl t
  | cons entry rest ih => exact (t.grows_define i entry.1 entry.2).trans (ih _)

theorem Sound.defineAll (h : t.Sound L) {i : ScopeId} (hi : i < t.first.store.scopes.size)
    {entries : List (String × Value)} (hv : ∀ e ∈ entries, e.2.Usable t) :
    (t.defineAll i entries).Sound L := by
  induction entries generalizing t with
  | nil => exact h
  | cons entry rest ih =>
    obtain ⟨hentry, hrest⟩ := List.forall_mem_cons.1 hv
    have hg := t.grows_define i entry.1 entry.2
    exact ih (h.define hi entry.1 hentry) (hi.trans_le hg.scopes_le) fun e he =>
      (hrest e he).mono hg

theorem first_defineAll (t : Pairing) (i : ScopeId) (entries : List (String × Value)) :
    (t.defineAll i entries).first = { t.first with store := { t.first.store with
      scopes := t.first.store.scopes.defineAll i entries } } := by
  induction entries generalizing t with
  | nil => rfl
  | cons entry rest ih => exact ih _

theorem second_defineAll (t : Pairing) (i : ScopeId) (entries : List (String × Value)) :
    (t.defineAll i entries).second = { t.second with store := { t.second.store with
      scopes := t.second.store.scopes.defineAll (t.image i)
        (entries.map fun e => (Frame.naming (t.frames i) 0 e.1, e.2)) } } := by
  induction entries generalizing t with
  | nil => rfl
  | cons entry rest ih => exact ih _

end defineAll

section calls

/-- The scope of a call, with the parameters bound. -/
def openCall (t : Pairing) (names : Equiv.Perm String) (c c' : Closure)
    (bindings : List (String × Value)) : Pairing :=
  (t.enter names (t.frames c.scope) c.scope c'.scope).defineAll t.first.store.scopes.size bindings

theorem stands_frames (h : t.Aligned L) {i : ScopeId} (hi : i < t.first.store.scopes.size) :
    t.Stands (t.frames i) i (t.image i) := (stands_iff (h.names i hi).1).2 ⟨hi, rfl, rfl⟩

theorem second_openCall (t : Pairing) (names : Equiv.Perm String) (c c' : Closure)
    (bindings : List (String × Value)) :
    (t.openCall names c c' bindings).second = { t.second with store := { t.second.store with
      scopes := (t.second.store.scopes.enter c'.scope).1.defineAll t.second.store.scopes.size
        (bindings.map (Prod.map names id)) } } := by
  obtain ⟨-, himage, hframes⟩ := stands_enter t names (t.frames c.scope) c.scope c'.scope
  rw [openCall, second_defineAll, ← himage, hframes]
  rfl

variable {c c' : Closure}

theorem Sound.openCall (h : t.Sound L) (hc : c.scope < t.first.store.scopes.size)
    (hc' : c'.scope = t.image c.scope) {names : Equiv.Perm String} (hr : L.renames names)
    {bindings : List (String × Value)} (hv : ∀ b ∈ bindings, b.2.Usable t) :
    (t.openCall names c c' bindings).Sound L ∧ t.Grows (t.openCall names c c' bindings) ∧
      (t.openCall names c c' bindings).Stands (.shared names :: t.frames c.scope)
        t.first.store.scopes.size t.second.store.scopes.size := by
  have hstands := stands_frames h.aligned hc
  rw [← hc'] at hstands
  have hg := grows_enter h.aligned names (t.frames c.scope) c.scope c'.scope
  have hall := grows_defineAll (t.enter names (t.frames c.scope) c.scope c'.scope)
    t.first.store.scopes.size bindings
  have hnew := stands_enter t names (t.frames c.scope) c.scope c'.scope
  exact ⟨(h.enter hr hstands).defineAll hnew.lt fun b hb => (hv b hb).mono hg, hg.trans hall,
    hnew.mono hall⟩

/-- A method with `self` bound. -/
def bindSelf (t : Pairing) (c c' : Closure) (v : Value) : Pairing :=
  ((t.enter (Equiv.refl String) (t.frames c.scope) c.scope c'.scope).define
    t.first.store.scopes.size selfName v).addClosure
      { c with scope := t.first.store.scopes.size }
      { c' with scope := t.second.store.scopes.size } true

theorem second_bindSelf (t : Pairing) (c c' : Closure) (v : Value) :
    (t.bindSelf c c' v).second =
      { t.second with store := (t.second.store.bindSelf c' v).1 } := by
  simp only [bindSelf, addClosure, define, enter, if_pos, Frame.naming, Equiv.refl_apply]
  rfl

theorem Sound.bindSelf (h : t.Sound L) (hc : c.scope < t.first.store.scopes.size)
    (hc' : c'.scope = t.image c.scope) (hpilot : c'.isPilot = c.isPilot)
    (hr : c.declaration.Revises L (.shared (Equiv.refl String) :: t.frames c.scope) c'.declaration)
    {v : Value} (hv : v.Usable t) :
    (t.bindSelf c c' v).Sound L ∧ t.Grows (t.bindSelf c c' v) := by
  have hstands := stands_frames h.aligned hc
  rw [← hc'] at hstands
  have hg := grows_enter h.aligned (Equiv.refl String) (t.frames c.scope) c.scope c'.scope
  have hnew := stands_enter t (Equiv.refl String) (t.frames c.scope) c.scope c'.scope
  have hdefine := (h.enter L.renames_refl hstands).define hnew.lt selfName (hv.mono hg)
  have hgrows := (t.enter (Equiv.refl String) (t.frames c.scope) c.scope c'.scope).grows_define
    t.first.store.scopes.size selfName v
  have hlabelled := hnew.mono hgrows
  refine ⟨hdefine.addClosure hlabelled.1 hlabelled.2.1 hpilot ?_,
    (hg.trans hgrows).trans (grows_addClosure ..)⟩
  rw [around, if_pos rfl]
  rw [show _ = _ from hlabelled.2.2]
  exact hr

end calls

end Pairing

/-- Adds a method to a store and to a table. -/
def Store.addMethod (scope : ScopeId) (made : Store × NameMap Nat) (o : Operation) :
    Store × NameMap Nat :=
  let (s, id) := made.1.addClosure ⟨o, scope, o.name.text == pilotName⟩
  (s, made.2.insert o.name.text id)

namespace Pairing

/-- The machines make the methods of an object in the same order, so they get the same table. -/
theorem Sound.addMethods (h : t.Sound L) {i : ScopeId} (hi : i < t.first.store.scopes.size)
    {os os' : List Operation}
    (hr : Operation.RevisesList L (.shared (Equiv.refl String) :: t.frames i) os os')
    {table : NameMap Nat} (ht : ∀ x id, table.get? x = some id →
      id < t.first.store.closures.size ∧ t.bindable id) :
    let made := os.foldl (Store.addMethod i) (t.first.store, table)
    let made' := os'.foldl (Store.addMethod (t.image i)) (t.second.store, table)
    made'.2 = made.2 ∧ ∃ u : Pairing, u.Sound L ∧ t.Grows u ∧
      u.first = { t.first with store := made.1 } ∧ u.second = { t.second with store := made'.1 } ∧
      ∀ x id, made.2.get? x = some id → id < u.first.store.closures.size ∧ u.bindable id := by
  generalize hframes : Frame.shared (Equiv.refl String) :: t.frames i = fs at hr
  induction os generalizing t os' table with
  | nil =>
    cases hr
    exact ⟨rfl, t, h, .refl t, rfl, rfl, ht⟩
  | cons o os ih =>
    cases hr with
    | cons ho hos =>
      next o' os' =>
      subst hframes
      have hg := t.grows_addClosure ⟨o, i, o.name.text == pilotName⟩
        ⟨o', t.image i, o'.name.text == pilotName⟩ false
      have hadd : (t.addClosure ⟨o, i, o.name.text == pilotName⟩
          ⟨o', t.image i, o'.name.text == pilotName⟩ false).Sound L :=
        h.addClosure hi rfl (by rw [ho.name_eq]) ho
      have htable : ∀ x id, (table.insert o.name.text t.first.store.closures.size).get? x =
          some id → id < (t.addClosure ⟨o, i, o.name.text == pilotName⟩
            ⟨o', t.image i, o'.name.text == pilotName⟩ false).first.store.closures.size ∧
          (t.addClosure ⟨o, i, o.name.text == pilotName⟩
            ⟨o', t.image i, o'.name.text == pilotName⟩ false).bindable id := by
        intro x id hid
        rw [NameMap.get?_insert] at hid
        split at hid
        · obtain rfl := Option.some.inj hid
          exact t.bindable_addClosure _ _
        · obtain ⟨hlt, hb⟩ := ht x id hid
          exact ⟨hlt.trans_le hg.closures_le, (hg.bindable id hlt).2 hb⟩
      obtain ⟨htables, u, hu, hgrows, hfirst, hsecond, hmethods⟩ :=
        ih hadd hi htable rfl hos
      have hstep : Store.addMethod (t.image i) (t.second.store, table) o' =
          ((t.addClosure ⟨o, i, o.name.text == pilotName⟩
            ⟨o', t.image i, o'.name.text == pilotName⟩ false).second.store,
            table.insert o.name.text t.first.store.closures.size) := by
        simp only [Store.addMethod, Store.addClosure, ho.name_eq, h.closures_size,
          Pairing.addClosure]
      rw [List.foldl_cons, List.foldl_cons, hstep]
      exact ⟨htables, u, hu, hg.trans hgrows, hfirst, hsecond, hmethods⟩

end Pairing

end Treescript
