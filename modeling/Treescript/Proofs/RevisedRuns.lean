import Treescript.Proofs.PairedRuns
import Treescript.Proofs.ScopeAgreement

/-!
# Outcomes of revised programs

Between two programs the machine of a session is intact: it is at the globals, and whatever a value
or an operation refers to is there. Such a machine is paired with itself, so a program and a
revision of it that are run on it have the same outcome, but for the new name of a variable that
turns out to be undefined.
-/

namespace Treescript

structure Machine.Intact (m : Machine) : Prop where
  current : m.current = m.globals
  globals : m.globals < m.store.scopes.size
  values : ∀ i x id, m.store.scopes.get? i x = some (.operation id) → id < m.store.closures.size
  fields : ∀ fields ∈ m.store.holders, ∀ x id, fields.get? x = some (.operation id) →
    id < m.store.closures.size
  members : ∀ type ∈ m.store.forms, ∀ x id, type.members.get? x = some (.operation id) →
    id < m.store.closures.size
  methods : ∀ type ∈ m.store.objects, ∀ x id, type.methods.get? x = some id →
    id < m.store.closures.size
  closures : ∀ (id : Nat) (c : Closure), m.store.closures[id]? = some c →
    c.scope < m.store.scopes.size

/-- What a session has been through leaves its machine intact. -/
theorem Machine.intact_interpretAll (clock : Clock) (modules : List Module)
    (programs : List (Nat × Program)) :
    ((Machine.start clock (modules.flatMap Module.entries)).interpretAll programs).Intact := by
  have hplain : (Texts.ofSession programs fun _ => False).Plain := fun _ _ hs => hs.elim
  have hstart : (Observed.start clock (modules.flatMap Module.entries)).Resting
      (Texts.ofSession programs fun _ => False) := ⟨Observed.fine_start clock modules, rfl⟩
  obtain ⟨⟨hs, -⟩, hcurrent⟩ := hstart.interpretAll hplain fun n entry hn v hv => by
    rw [Nat.zero_add] at hv
    exact Texts.visits_ofSession hn hv
  have hmachine := Observed.machine_interpretAll
    (Observed.start clock (modules.flatMap Module.entries)) 0 programs
  rw [← show _ = (Machine.start clock (modules.flatMap Module.entries)).interpretAll programs from
    hmachine]
  exact ⟨hcurrent, hs.globals_lt, fun i x id hv => (hs.bindings i x _ hv).1,
    fun fields hf x id hv => (hs.fields fields hf x _ hv).1,
    fun type ht x id hv => (hs.members type ht x _ hv).1,
    fun type ht x id hid => (hs.methods type ht x id hid).1,
    fun id c hc => (hs.closures id c hc).activates.1⟩

variable {L : Licence}

namespace Pairing

/-- Two machines that are the same, before either of the programs runs. -/
def twice (m : Machine) : Pairing :=
  ⟨m, m, id, fun _ => [], fun _ => False, fun _ => True, fun _ => True⟩

theorem sound_twice {m : Machine} (h : m.Intact) : (twice m).Sound L := by
  have husable : ∀ v : Value, (∀ id, v = .operation id → id < m.store.closures.size) →
      v.Usable (twice m) := by
    intro v hv
    cases v with
    | operation id => exact ⟨hv id rfl, trivial⟩
    | _ => trivial
  refine ⟨⟨fun _ hi => hi, fun _ _ _ _ heq => heq, ?names, fun _ _ _ => rfl, fun _ _ ho => ho,
    ?outer_some, nofun, nofun, nofun, h.globals, rfl, rfl⟩, ?values, ?fields, ?members, ?methods,
    rfl, ?closures, rfl, rfl, rfl, rfl, rfl, rfl⟩
  case names => exact fun i _ => ⟨rfl, fun _ hn => absurd hn List.not_mem_nil⟩
  case outer_some => exact fun i hi o ho => ⟨o, ho, (Scopes.outer?_lt ho).trans hi, rfl, rfl⟩
  case values => exact fun i x v hv => husable v fun id hid => h.values i x id (hid ▸ hv)
  case fields =>
    exact fun fields hf x v hv => husable v fun id hid => h.fields fields hf x id (hid ▸ hv)
  case members =>
    exact fun type ht x v hv => husable v fun id hid => h.members type ht x id (hid ▸ hv)
  case methods => exact fun type ht x id hid => ⟨h.methods type ht x id hid, trivial⟩
  case closures =>
    intro id c c' hc hc'
    obtain rfl := Option.some.inj (hc.symm.trans hc')
    exact ⟨rfl, rfl, rfl, h.closures id c hc, rfl,
      fun _ => Operation.revises_refl .nil c.declaration,
      fun _ => Operation.revises_refl Frame.Plain.nil.cons c.declaration⟩

theorem at_twice {m : Machine} (h : m.Intact) : (twice m).At [] :=
  ⟨h.current ▸ h.globals, rfl, rfl⟩

end Pairing

/-- What can be seen of a run. -/
structure Outcome where
  ending : Ending
  events : Array Event
  /-- How the globals are displayed. -/
  globals : String → Option String

def Machine.displayGlobal? (m : Machine) (x : String) : Option String :=
  (m.store.scopes.get? m.globals x).map m.store.display

theorem Machine.displayGlobal?_aborted (m : Machine) (e : Event) :
    Machine.displayGlobal? { m with current := m.globals, events := m.events.push e } =
      m.displayGlobal? := rfl

def Program.outcome (fuel : Nat) (m : Machine) (p : Program) : Outcome :=
  let (ending, m') := m.interpret fuel p
  ⟨ending, m'.events, m'.displayGlobal?⟩

/-- The outcome of a run that comes upon an undefined variable. -/
def Outcome.undefined (token : Token) (before : Array Event) (globals : String → Option String) :
    Outcome :=
  let message := (Cause.undefinedVariable token.text).message
  ⟨.aborted ⟨token, message, none⟩,
    before.push (.logged ⟨.warn, "run aborted",
      [("line", .int (Int64.ofInt token.row)), ("error", .text message)]⟩), globals⟩

inductive Outcome.Twins (L : Licence) : Outcome → Outcome → Prop
  | same (o : Outcome) : Outcome.Twins L o o
  | renamed {names : Equiv.Perm String} {token : Token} {before : Array Event}
      {globals : String → Option String} : L.renames names → ¬L.fresh token.text →
      Outcome.Twins L (.undefined token before globals)
        (.undefined (token.renamed names) before globals)

theorem Pairing.Sound.displayGlobal?_eq {t : Pairing} (h : t.Sound L) :
    t.second.displayGlobal? = t.first.displayGlobal? := by
  funext x
  have hget := h.aligned.get_here rfl h.aligned.globals x
  rw [Equiv.refl_apply] at hget
  rw [Machine.displayGlobal?, Machine.displayGlobal?, hget, h.display_eq]

/-- Of two things the one on the side that is counted. -/
def Side.counted {α : Type} : Side → α → α → α
  | first, a, _ => a
  | second, _, b => b

/-- Unless the run that is counted is out of fuel, a program and its revision have the same outcome,
up to the name of an undefined variable. -/
theorem Program.outcome_of_revises {side : Side} {n n' : Nat} (hn : side.Covers L.slack n n')
    {m : Machine} (hm : m.Intact) {p p' : Program} (hp : Stmt.RevisesList L [] p p') :
    (side.counted (p.outcome n m) (p'.outcome n' m)).ending = .outOfFuel ∨
      Outcome.Twins L (p.outcome n m) (p'.outcome n' m) := by
  have hrun := Program.agree hn (Pairing.sound_twice hm) (Pairing.at_twice hm) hp
  simp only [Program.outcome, Machine.interpret]
  rcases hr : (Program.run n p).run m with ⟨r, m₁⟩
  rcases hr' : (Program.run n' p').run m with ⟨r', m₁'⟩
  simp only [Agree, Pairing.twice, hr, hr'] at hrun
  rcases hrun with hspent | ⟨u, -, hu, rfl, rfl, hc⟩
  · cases side with
    | first =>
      obtain rfl : r = .error .outOfFuel := hspent
      exact .inl rfl
    | second =>
      obtain rfl : r' = .error .outOfFuel := hspent
      exact .inl rfl
  · right
    have hevents := hu.events
    have hglobals := hu.displayGlobal?_eq
    cases hc with
    | ok =>
      simp only [hevents, hglobals]
      exact .same _
    | fault =>
      simp only [hevents, hglobals]
      exact .same _
    | failure htwins =>
      dsimp only
      rw [Machine.displayGlobal?_aborted, Machine.displayGlobal?_aborted, hglobals, hevents]
      cases htwins with
      | same =>
        simp only [Failure.abort, hu.display_eq]
        exact .same _
      | renamed hnames hx => exact .renamed hnames hx

end Treescript
