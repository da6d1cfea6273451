import Treescript.Proofs.ChronicledEvaluations
import Treescript.Proofs.ReachedMachines

/-!
# Types never change, and holders are isolated

Over a whole session, types, operations and the nesting of scopes stay as they were made, and names
stay bound. A property of a holder is what was last written to it, or else what its type has under
the key; nothing but a write to this very holder changes that. Each call of a type makes a holder
that is equal to no value that was there before.
-/

namespace Treescript

/-- A session starts with modules and runs programs one after the other. -/
def Chronicle.OfSession (c : Chronicle) : Prop :=
  ∃ (clock : Clock) (modules : List Module) (programs : List (Nat × Program)),
    c = (Machine.start clock (modules.flatMap Module.entries)).chronicle programs

/-- The value has been there by the end of the chronicle. -/
def Chronicle.Knows (c : Chronicle) (v : Value) : Prop := ∃ k ∈ c, k.Has v

section Sessions

variable {m : Machine} {past : Chronicle}

theorem Program.tells (fuel : Nat) (p : Program) (hm : m.store.Recorded past) :
    Chronicle.Tells past (p.chronicle fuel m) m.store ((p.run fuel).run m).2.store := by
  induction p generalizing m past with
  | nil => exact .done (.refl hm)
  | cons s rest ih =>
    have hstmt : Chronicle.Tells past (Evaluation.chronicle ⟨fuel, .stmt s, m⟩) m.store
        ((s.exec fuel).run m).2.store :=
      (Evaluation.told ⟨fuel, .stmt s, m⟩ nofun past (.of_store hm fun _ h => h)).1
    have hrun : (Program.run fuel (s :: rest)).run m =
        (s.exec fuel >>= fun _ => Program.run fuel rest).run m := rfl
    rw [Program.chronicle, hrun, run_bind_eq]
    rcases hx : Evaluation.outcome ⟨fuel, .stmt s, m⟩ with ⟨stop | a, m'⟩
    · rw [Evaluation.whenDone_error hx, List.append_nil]
      rw [show (s.exec fuel).run m = (.error stop, m') from hx] at hstmt ⊢
      exact hstmt
    · rw [Evaluation.whenDone_ok hx]
      rw [show (s.exec fuel).run m = (.ok a, m') from hx] at hstmt ⊢
      exact hstmt.append (ih hstmt.recorded)

theorem Machine.tells (m : Machine) (programs : List (Nat × Program))
    (hm : m.store.Recorded past) : ∃ s, Chronicle.Tells past (m.chronicle programs) m.store s := by
  have hidle : ∀ {m : Machine} {past : Chronicle}, m.store.Recorded past →
      Entry.Fits past (.idle m) := by
    intro m past hm
    refine ⟨?_, fun _ h => h.elim, nofun⟩
    rintro _ ⟨⟩
    exact hm
  have hstore : ∀ m m' : Machine, (Entry.idle m).machine? = some m' → m'.store = m.store := by
    rintro m _ ⟨⟩
    rfl
  induction programs generalizing m past with
  | nil =>
    exact ⟨m.store, .entry (hidle hm) (.refl _) (hstore m) (.done (.refl (hm.concat rfl)))⟩
  | cons entry rest ih =>
    obtain ⟨fuel, p⟩ := entry
    have hprogram := p.tells fuel (hm.concat (k := .idle m) rfl)
    rw [← (m.interpret_eq fuel p).1] at hprogram
    obtain ⟨s, hrest⟩ := ih (m.interpret fuel p).2 hprogram.recorded
    exact ⟨s, .entry (hidle hm) (.refl _) (hstore m) (hprogram.append hrest)⟩

theorem Machine.recorded_start (clock : Clock) (modules : List Module) :
    (Machine.start clock (modules.flatMap Module.entries)).store.Recorded [] := by
  let root : Store := { Store.empty with scopes := Scopes.empty.push none }
  have hroot : root.Recorded [] := by
    refine ⟨rfl, fun id key => rfl, rfl, fun v hv => ?_⟩
    cases hv with
    | binding i x h =>
      rw [Scopes.get?_push] at h
      cases h
    | field id fields x hid h => cases hid
    | member t type x ht h => cases ht
  refine (Store.Becomes.defineAll hroot 0 fun entry hentry => ?_).recorded
  -- a session starts with natives, and nothing is live in a store without entries but constants
  have hlive := Module.live_entries Store.empty modules entry hentry
  generalize entry.2 = v at hlive
  cases v with
  | holder of id => exact absurd hlive.2 (Nat.not_lt_zero id)
  | _ => trivial

theorem Chronicle.OfSession.tells {c : Chronicle} (h : c.OfSession) :
    ∃ s s', Chronicle.Tells [] c s s' := by
  obtain ⟨clock, modules, programs, rfl⟩ := h
  exact ⟨_, Machine.tells _ programs (Machine.recorded_start clock modules)⟩

end Sessions

section Soundness

variable {strict : Prop}

theorem Job.Sound.live {s : Store} {t : Job} (h : t.Sound strict s) {v : Value} (hv : t.Given v) :
    v.Live s := by
  cases t with
  | invocation callee args =>
    rcases hv with rfl | hv
    · exact h.1
    · exact h.2.1 v hv
  | application closure args => exact h.2.1 v hv
  | members ds before =>
    obtain ⟨x, hx⟩ := hv
    exact h.2 x v hx
  | _ => exact hv.elim

theorem Job.Holds.live {s : Store} {t : Job} {a : t.Result} (h : t.Holds strict a s) {v : Value}
    (hv : t.Yields v a) : v.Live s := by
  cases t with
  | expr | optional | invocation | application => exact (hv : a = v) ▸ h
  | exprs => exact h v hv
  | stmt | stmts | rounds =>
    obtain rfl : a = Completion.returned v := hv
    exact h
  | members =>
    obtain ⟨x, hx⟩ := hv
    exact h x v hx
  | arms | program => exact hv.elim

/-- The machine at the entry is sound, and all that is there is live. -/
structure Entry.Sound (strict : Prop) (k : Entry) : Prop where
  machine : ∀ m, k.machine? = some m → m.Sound strict
  live : ∀ m, k.machine? = some m → ∀ v, k.AtHand v → v.Live m.store

theorem Evaluation.Sound.chronicle {x : Evaluation} (h : x.Sound strict)
    (hx : ∀ p, x.job ≠ .program p) : ∀ k ∈ x.chronicle, k.Sound strict := by
  have hbegun : ∀ {x : Evaluation}, x.Sound strict → (Entry.begun x).Sound strict := by
    intro x h
    refine ⟨?_, ?_⟩
    · rintro _ ⟨⟩
      exact h.machine
    · rintro _ ⟨⟩ v hv
      exact h.job.live hv
  have hended : ∀ {x : Evaluation}, x.Sound strict → (Entry.ended x).Sound strict := by
    intro x h
    obtain ⟨hp, hsettled⟩ := h.ends
    refine ⟨?_, ?_⟩
    · rintro _ ⟨⟩
      exact hp.sound
    · rintro _ ⟨⟩ v ⟨a, ha, hv⟩
      rw [show ((x.job.run x.fuel).run x.machine).1 = .ok a from ha] at hsettled
      exact Job.Holds.live hsettled hv
  have hchange : ∀ {k : Entry}, k.machine? = none → k.Sound strict := by
    intro k hk
    constructor <;> simp [hk]
  obtain ⟨fuel, t, m⟩ := x
  induction fuel generalizing t m with
  | zero => exact List.forall_mem_cons.2 ⟨hbegun h, List.forall_mem_singleton.2 (hended h)⟩
  | succ fuel ih =>
    have hparts : Evaluation.parts ⟨fuel + 1, t, m⟩ = t.parts fuel m := by
      cases t <;> first | rfl | exact absurd rfl (hx _)
    rw [Evaluation.chronicle_succ]
    simp only [List.forall_mem_cons, List.forall_mem_append]
    refine ⟨hbegun h, ⟨⟨fun k hk => hchange (Job.machine?_of_mem_opening hk), fun k hk => ?_⟩,
      fun k hk => hchange (Job.machine?_of_mem_closing hk)⟩, hended h, List.forall_mem_nil _⟩
    obtain ⟨y, hy, hyk⟩ := List.mem_flatMap.1 hk
    have hsound := h.part (hparts ▸ hy)
    obtain ⟨rfl, hprogram⟩ := Job.of_mem_parts hy
    exact ih y.job y.machine hsound hprogram k hyk

theorem Program.sound_chronicle (fuel : Nat) (p : Program) {m : Machine} (hm : m.Sound False) :
    ∀ k ∈ p.chronicle fuel m, k.Sound False := by
  induction p generalizing m with
  | nil => exact List.forall_mem_nil _
  | cons s rest ih =>
    have hstmt : Evaluation.Sound False ⟨fuel, .stmt s, m⟩ := ⟨hm, nofun⟩
    rw [Program.chronicle]
    refine List.forall_mem_append.2 ⟨hstmt.chronicle nofun, ?_⟩
    rcases hx : Evaluation.outcome ⟨fuel, .stmt s, m⟩ with ⟨stop | a, m'⟩
    · rw [Evaluation.whenDone_error hx]
      exact List.forall_mem_nil _
    · rw [Evaluation.whenDone_ok hx]
      have hend : (Evaluation.outcome ⟨fuel, .stmt s, m⟩).2.Sound False := hstmt.ends.1.sound
      rw [hx] at hend
      exact ih hend

theorem Machine.sound_chronicle {m : Machine} (hm : m.Sound False)
    (programs : List (Nat × Program)) : ∀ k ∈ m.chronicle programs, k.Sound False := by
  have hidle : ∀ {m : Machine}, m.Sound False → (Entry.idle m).Sound False := by
    intro m hm
    refine ⟨?_, fun _ _ _ h => h.elim⟩
    rintro _ ⟨⟩
    exact hm
  induction programs generalizing m with
  | nil => exact List.forall_mem_singleton.2 (hidle hm)
  | cons entry rest ih =>
    obtain ⟨fuel, p⟩ := entry
    have hrest := ih (hm.interpret fuel (p := p) nofun)
    exact List.forall_mem_cons.2 ⟨hidle hm,
      List.forall_mem_append.2 ⟨p.sound_chronicle fuel hm, hrest⟩⟩

end Soundness

/-- What a type has under a key. -/
inductive Offer where
  | value (v : Value)
  | method (c : Closure)

/-- A method of an object type; of an enum type the element with an ordinal if the key is a literal
in range, else the ordinal of an element; the default of a member of a form. -/
def Store.offer? (s : Store) (key : Token) : TypeRef → Option Offer
  | .object t =>
    ((s.objects[t]?.bind (·.methods.get? key.text)).bind (s.closures[·]?)).map .method
  | .enum t =>
    s.enums[t]?.bind fun type =>
      match key.literal.integer?.bind fun n => type.elementName? n.toInt with
      | some element => some (.value (.text element))
      | none => (type.ordinal? key.text).map fun n => .value (.int (Int64.ofNat n))
  | .form t => (s.forms[t]?.bind (·.members.get? key.text)).map .value

/-- What reading a property gives: the field of the holder if there is one, else what the type has,
a method bound to the holder. -/
def Machine.property (m : Machine) (own : Option Value) (of : TypeRef) (id : Nat) (key : Token) :
    Except Stop Value × Machine :=
  match own with
  | some v => (.ok v, m)
  | none =>
    match m.store.offer? key of with
    | some (.value v) => (.ok v, m)
    | some (.method c) =>
      (.ok (.operation m.store.closures.size), m.bindSelf c (.holder of id))
    | none => (.error (.failure ⟨key, .undefinedProperty of key.text, none⟩), m)

/-- The machine with other fields of its holders, and all else as it is. -/
def Machine.withHolders (m : Machine) (holders : Array (NameMap Value)) : Machine :=
  { m with store := { m.store with holders } }

/-- Reading a property of a holder that is there always has a result or an ordinary failure. -/
theorem Run.getProperty_eq_property {m : Machine}
    (hm : ∀ (t : Nat) (type : ObjectType) (x : String) (id : Nat), m.store.objects[t]? = some type →
      type.methods.get? x = some id → id < m.store.closures.size)
    {of : TypeRef} {id : Nat} (h : (Value.holder of id).Live m.store) (key : Token) :
    (Run.getProperty of id key).run m =
      m.property (m.store.holders[id]?.bind (·.get? key.text)) of id key := by
  obtain ⟨hof, hid⟩ := h
  have hfields := Array.getElem?_eq_getElem hid
  have hfound : ∀ {α : Type} {a? : Option α} {a : α} (k : α → Run Value), a? = some a →
      (Run.found a? >>= k).run m = (k a).run m := by
    rintro _ _ _ k rfl
    rfl
  change (Run.found (m.store.holders[id]?) >>= _).run m = _
  rw [hfound _ hfields, hfields, Option.bind_some]
  cases m.store.holders[id].get? key.text with
  | some v => rfl
  | none =>
    cases of with
    | object t =>
      have htype := Array.getElem?_eq_getElem hof
      dsimp only
      rw [hfound _ htype, Machine.property, Store.offer?, htype, Option.bind_some]
      cases hmethod : m.store.objects[t].methods.get? key.text with
      | none => rfl
      | some method =>
        have hclosure := Array.getElem?_eq_getElem (hm t _ key.text method htype hmethod)
        dsimp only
        rw [hfound _ hclosure, Option.bind_some, hclosure]
        rfl
    | «enum» t =>
      have htype := Array.getElem?_eq_getElem hof
      dsimp only
      rw [hfound _ htype, Machine.property, Store.offer?, htype, Option.bind_some]
      cases key.literal.integer?.bind fun n => m.store.enums[t].elementName? n.toInt with
      | some element => rfl
      | none =>
        cases m.store.enums[t].ordinal? key.text <;> rfl
    | form t =>
      have htype := Array.getElem?_eq_getElem hof
      dsimp only
      rw [hfound _ htype, Machine.property, Store.offer?, htype, Option.bind_some]
      cases m.store.forms[t].members.get? key.text <;> rfl

theorem Machine.holders_property (m : Machine) (own : Option Value) (of : TypeRef) (id : Nat)
    (key : Token) : (m.property own of id key).2.store.holders = m.store.holders := by
  cases own with
  | some v => rfl
  | none =>
    rw [Machine.property]
    split <;> rfl

/-- Where types and operations are the same, only the field matters. -/
theorem Machine.property_congr (m : Machine) (holders : Array (NameMap Value)) (own : Option Value)
    (of : TypeRef) (id : Nat) (key : Token) :
    ((m.withHolders holders).property own of id key).1 = (m.property own of id key).1 := by
  have hoffer : (m.withHolders holders).store.offer? key of = m.store.offer? key of := by
    cases of <;> rfl
  cases own with
  | some v => rfl
  | none =>
    rw [Machine.property, Machine.property, hoffer]
    split <;> rfl

theorem Value.call_type_ok {fuel : Nat} {t : TypeRef} {args : List Value} {m m' : Machine}
    {v : Value} (h : ((Value.type t).call fuel args).run m = (.ok v, m')) :
    v = .holder t m.store.holders.size := by
  cases fuel with
  | zero => cases h
  | succ fuel =>
    rw [Value.call_type_run] at h
    dsimp only at h
    split at h
    · cases h
      rfl
    · split at h
      · cases h
      · rw [run_bind_eq] at h
        split at h
        · cases h
          rfl
        · cases h

theorem Entry.Fits.madeIn {past : Chronicle} {k : Entry} (h : k.Fits past) {v : Value}
    (hv : k.Has v) : v.MadeIn past := by
  rcases hv with hv | ⟨m, hm, hv⟩
  · exact h.atHand v hv
  · exact (h.recorded m hm).values v hv

theorem Entry.Sound.live_of_has {strict : Prop} {k : Entry} (h : k.Sound strict) {v : Value}
    (hv : k.Has v) : ∃ m, k.machine? = some m ∧ v.Live m.store := by
  rcases hv with hv | ⟨m, hm, hv⟩
  · cases k with
    | begun x => exact ⟨_, rfl, h.live _ rfl v hv⟩
    | ended x => exact ⟨_, rfl, h.live _ rfl v hv⟩
    | _ => exact hv.elim
  · exact ⟨m, hm, (h.machine m hm).store.values v hv⟩

namespace Chronicle.OfSession

variable {c past later : Chronicle} {k : Entry}

theorem sound (h : c.OfSession) : ∀ k ∈ c, k.Sound False := by
  obtain ⟨clock, modules, programs, rfl⟩ := h
  exact Machine.sound_chronicle (Machine.sound_start clock modules) programs

theorem fits (h : c.OfSession) (hc : c = past ++ k :: later) : k.Fits past := by
  obtain ⟨s, s', htells⟩ := h.tells
  exact htells.fits hc

theorem pairwise (h : c.OfSession) :
    (c.filterMap Entry.machine?).Pairwise fun m m' => m.store.Endures m'.store := by
  obtain ⟨s, s', htells⟩ := h.tells
  exact htells.pairwise.2

/-- The chronicle knows the type of every holder that has been there. -/
theorem madeIn (h : c.OfSession) (hc : c = past ++ k :: later) {v : Value}
    (hv : Chronicle.Knows (past ++ [k]) v) : v.MadeIn past := by
  obtain ⟨e, he, hv⟩ := hv
  rcases List.mem_append.1 he with he | he
  · obtain ⟨before, after, rfl⟩ := List.append_of_mem he
    rw [List.append_assoc, List.cons_append] at hc
    exact ((h.fits hc).madeIn hv).append _
  · obtain rfl := List.mem_singleton.1 he
    exact (h.fits hc).madeIn hv

/-- What has been there still is. -/
theorem live (h : c.OfSession) (hc : c = past ++ k :: later) {m : Machine}
    (hm : k.machine? = some m) {v : Value} (hv : Chronicle.Knows (past ++ [k]) v) :
    v.Live m.store := by
  obtain ⟨e, he, hv⟩ := hv
  have hmem : e ∈ c := by
    rw [hc, List.append_cons]
    exact List.mem_append_left _ he
  obtain ⟨m₁, hm₁, hlive⟩ := (h.sound e hmem).live_of_has hv
  rcases List.mem_append.1 he with he | he
  · have hpairs := h.pairwise
    rw [hc, List.filterMap_append, List.pairwise_append] at hpairs
    have hendures := hpairs.2.2 m₁ (List.mem_filterMap.2 ⟨e, he, hm₁⟩) m
      (List.mem_filterMap.2 ⟨k, List.mem_cons_self, hm⟩)
    exact hlive.mono hendures.toGrows
  · obtain rfl := List.mem_singleton.1 he
    obtain rfl := Option.some.inj (hm₁.symm.trans hm)
    exact hlive

/-- Two holders with one number are the same. -/
theorem number_ne (h : c.OfSession) (hc : c = past ++ k :: later) {of of' : TypeRef} {id id' : Nat}
    (hv : Chronicle.Knows (past ++ [k]) (.holder of id))
    (hv' : Chronicle.Knows (past ++ [k]) (.holder of' id'))
    (hne : Value.holder of' id' ≠ .holder of id) : id' ≠ id := by
  rintro rfl
  have hof : past.types[id']? = some of := h.madeIn hc hv
  have hof' : past.types[id']? = some of' := h.madeIn hc hv'
  exact hne (by rw [Option.some.inj (hof'.symm.trans hof)])

/-- What has been there is not equal to a holder with a higher number. -/
theorem not_equal (h : c.OfSession) (hc : c = past ++ k :: later) {m : Machine}
    (hm : k.machine? = some m) (t : TypeRef) {w : Value} (hw : Chronicle.Knows (past ++ [k]) w) :
    (Value.holder t m.store.holders.size).equal w = false ∧
      w.equal (.holder t m.store.holders.size) = false := by
  have hlive := h.live hc hm hw
  cases w with
  | holder of id =>
    have hne : id ≠ m.store.holders.size := Nat.ne_of_lt hlive.2
    simp [Value.equal, hne, Ne.symm hne]
  | _ => exact ⟨rfl, rfl⟩

theorem getProperty_run_eq (h : c.OfSession) (hc : c = past ++ k :: later) {m : Machine}
    (hm : k.machine? = some m) {of : TypeRef} {id : Nat}
    (hv : Chronicle.Knows (past ++ [k]) (.holder of id)) (key : Token) :
    (Run.getProperty of id key).run m = m.property (past.latest? id key.text) of id key := by
  have hsound : m.Sound False := (h.sound k (by simp [hc])).machine m hm
  rw [Run.getProperty_eq_property hsound.store.methods (h.live hc hm hv),
    ((h.fits hc).recorded m hm).fields]

/-- A write leaves all of the machine as it is but the fields of the holder. -/
theorem setProperty_run_eq (h : c.OfSession) (hc : c = past ++ k :: later) {m : Machine}
    (hm : k.machine? = some m) {of : TypeRef} {id : Nat}
    (hv : Chronicle.Knows (past ++ [k]) (.holder of id)) (key : Token) (v : Value) :
    ∃ holders, (Run.setProperty id key v).run m = (.ok (), m.withHolders holders) ∧
      ((Run.getProperty of id key).run (m.withHolders holders)).1 = .ok v ∧
      ∀ of' id', Chronicle.Knows (past ++ [k]) (.holder of' id') →
        Value.holder of' id' ≠ .holder of id → holders[id']? = m.store.holders[id']? ∧
          ∀ key', ((Run.getProperty of' id' key').run (m.withHolders holders)).1 =
            ((Run.getProperty of' id' key').run m).1 := by
  have hsound : m.Sound False := (h.sound k (by simp [hc])).machine m hm
  let holders := m.store.holders.modify id (·.insert key.text v)
  have hg : m.store.Grows (m.withHolders holders).store :=
    ⟨{ Store.Extends.refl m.store with }, by simp [holders, Machine.withHolders]⟩
  -- the types and operations are those of before, so that a read can be told as before
  have hread : ∀ of' id', Chronicle.Knows (past ++ [k]) (.holder of' id') → ∀ key',
      (Run.getProperty of' id' key').run (m.withHolders holders) =
        (m.withHolders holders).property (holders[id']?.bind (·.get? key'.text)) of' id' key' :=
    fun _ _ hv' => Run.getProperty_eq_property (m := m.withHolders holders) hsound.store.methods
      ((h.live hc hm hv').mono hg)
  refine ⟨holders, rfl, ?_, fun of' id' hv' hne => ?_⟩
  · have hid : id < m.store.holders.size := (h.live hc hm hv).2
    have hown : holders[id]? = some (m.store.holders[id].insert key.text v) := by
      rw [Array.getElem?_modify, if_pos rfl, Array.getElem?_eq_getElem hid]
      rfl
    rw [hread of id hv key, hown, Option.bind_some, NameMap.get?_insert_self]
    rfl
  · have hother : holders[id']? = m.store.holders[id']? := by
      rw [Array.getElem?_modify, if_neg (Ne.symm (h.number_ne hc hv hv' hne))]
    refine ⟨hother, fun key' => ?_⟩
    rw [hread of' id' hv' key', hother,
      Run.getProperty_eq_property hsound.store.methods (h.live hc hm hv')]
    exact m.property_congr holders _ of' id' key'

/-- Types, operations and scopes are as they were made, at every point of a session and up to its
end; the forms are those that were declared, and a declaration evaluates each default once, which a
call of the form does not. A call of a type makes a holder that differs from all there was. Of every
holder there is, a property is what was last written to it under the key, or else what its type has;
reading it writes nothing, and writing it changes no other holder. -/
theorem types_fixed_and_holders_apart (h : c.OfSession) :
    (c.filterMap Entry.machine?).Pairwise (fun m m' => m.store.Endures m'.store) ∧
    (∀ past type later, c = past ++ .declared type :: later → type.DeclaredBy past) ∧
    (∀ fuel t args m, Evaluation.chronicle ⟨fuel + 1, .invocation (.type (.form t)) args, m⟩ =
      [.begun ⟨fuel + 1, .invocation (.type (.form t)) args, m⟩, .made (.form t),
        .ended ⟨fuel + 1, .invocation (.type (.form t)) args, m⟩]) ∧
    (∀ past fuel t args m later v m',
      c = past ++ .begun ⟨fuel, .invocation (.type t) args, m⟩ :: later →
      ((Value.type t).call fuel args).run m = (.ok v, m') →
      (∃ id, v = .holder t id) ∧
        ∀ w, Chronicle.Knows (past ++ [.begun ⟨fuel, .invocation (.type t) args, m⟩]) w →
          v.equal w = false ∧ w.equal v = false) ∧
    ∀ past k later m, c = past ++ k :: later → k.machine? = some m →
      m.store.forms.toList = Chronicle.forms past ∧
      ∀ of id, Chronicle.Knows (past ++ [k]) (.holder of id) →
        (∀ key, (Run.getProperty of id key).run m =
          m.property (Chronicle.latest? past id key.text) of id key) ∧
        (∀ key, ((Run.getProperty of id key).run m).2.store.holders = m.store.holders) ∧
        ∀ key v, ∃ holders, (Run.setProperty id key v).run m = (.ok (), m.withHolders holders) ∧
          ((Run.getProperty of id key).run (m.withHolders holders)).1 = .ok v ∧
          ∀ of' id', Chronicle.Knows (past ++ [k]) (.holder of' id') →
            Value.holder of' id' ≠ .holder of id → holders[id']? = m.store.holders[id']? ∧
              ∀ key', ((Run.getProperty of' id' key').run (m.withHolders holders)).1 =
                ((Run.getProperty of' id' key').run m).1 := by
  refine ⟨h.pairwise, fun past type later hc => (h.fits hc).declared type rfl, fun _ _ _ _ => rfl,
    fun past fuel t args m later v m' hc hcall => ?_, fun past k later m hc hm =>
    ⟨((h.fits hc).recorded m hm).forms, fun of id hv => ⟨h.getProperty_run_eq hc hm hv,
      fun key => ?_, h.setProperty_run_eq hc hm hv⟩⟩⟩
  · obtain rfl := Value.call_type_ok hcall
    exact ⟨⟨_, rfl⟩, fun w hw => h.not_equal hc rfl t hw⟩
  · rw [h.getProperty_run_eq hc hm hv]
    exact m.holders_property _ of id key

end Chronicle.OfSession

/-- Only a float can differ from itself. -/
theorem Value.eq_of_equal {v w : Value} (hw : ∀ x, w ≠ .float x) (h : v.equal w = true) :
    v = w := by
  cases v <;> cases w <;> simp_all [Value.equal]

/-- Two instances of a type, and a field of the first. -/
def twoPoints : Program :=
  let name (text : String) : Token := ⟨.identifier, text, 1, .null⟩
  let made : Expr := .call (.variable (name "Point") none) ⟨.mark .close, ")", 1, .null⟩ []
  [.object .blank (name "Point") [],
    .define ⟨.blank, name "a", some made⟩,
    .define ⟨.blank, name "b", some made⟩,
    .expression .blank
      (.set (.variable (name "a") none) (name "x") (.literal .blank (.int 1)))]

theorem twoPoints_apart :
    let x : Token := ⟨.identifier, "x", 2, .null⟩
    let m := ((Machine.start ⟨fun _ => 0, 0⟩ []).interpret 9 twoPoints).2
    (Run.getProperty (.object 0) 0 x).run m = (.ok (.int 1), m) ∧
      (Run.getProperty (.object 0) 1 x).run m =
        (.error (.failure ⟨x, .undefinedProperty (.object 0) "x", none⟩), m) := by
  intro x m
  let start := Machine.start ⟨fun _ => 0, 0⟩ []
  let past : Chronicle := .idle start :: twoPoints.chronicle 9 start
  have hsession : Chronicle.OfSession (past ++ [.idle m]) :=
    ⟨⟨fun _ => 0, 0⟩, [], [(9, twoPoints)], rfl⟩
  obtain ⟨-, hread⟩ := hsession.types_fixed_and_holders_apart.2.2.2.2 past (.idle m) [] m rfl rfl
  have hsome : ∀ {v? : Option Value} {w : Value}, (∀ x, w ≠ .float x) →
      v?.any (·.equal w) = true → v? = some w := by
    intro v? w hw h
    cases v? with
    | none => cases h
    | some v => rw [Value.eq_of_equal hw h]
  have hknown : ∀ name id, (m.store.scopes.get? 0 name).any (·.equal (.holder (.object 0) id)) →
      Chronicle.Knows (past ++ [.idle m]) (.holder (.object 0) id) := fun name id h =>
    ⟨.idle m, List.mem_concat_self, .inr ⟨m, rfl, .binding 0 name (hsome nofun h)⟩⟩
  have ha := hknown "a" 0 (by decide +kernel)
  have hb := hknown "b" 1 (by decide +kernel)
  have hwritten : past.latest? 0 "x" = some (.int 1) := hsome nofun (by decide +kernel)
  have hunwritten : past.latest? 1 "x" = none := Option.isNone_iff_eq_none.1 (by decide +kernel)
  have hoffer : m.store.offer? x (.object 0) = none :=
    Option.isNone_iff_eq_none.1 (by decide +kernel)
  refine ⟨((hread _ _ ha).1 x).trans ?_, ((hread _ _ hb).1 x).trans ?_⟩
  · rw [hwritten]
    rfl
  · rw [hunwritten, Machine.property, hoffer]

end Treescript
