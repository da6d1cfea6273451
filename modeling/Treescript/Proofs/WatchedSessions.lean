import Treescript.Proofs.ScopeInvariant

/-!
# Watched sessions

The invariant over a whole session. A session starts in a sound world, and each of its programs, run
with its names resolved, leaves one behind, whether it finishes, fails or runs out of fuel. So every
moment of the session agrees with the text of the program that its node is from.
-/

namespace Treescript

section

variable {n : Nat} {P : Place}

theorem Expr.program_visits (h : P.program = n) (e : Expr) :
    ∀ v ∈ e.visits P, v.place.program = n := by
  simpa [Expr.visits] using fun _ _ => h

theorem Expr.program_visitsOptional (h : P.program = n) (e? : Option Expr) :
    ∀ v ∈ Expr.visitsOptional P e?, v.place.program = n := by
  cases e? with
  | none => exact List.forall_mem_nil _
  | some e => exact e.program_visits h

theorem Token.program_visitsOfParams (h : P.program = n) (params : List Token) :
    ∀ v ∈ Token.visitsOfParams P params, v.place.program = n := by
  induction params generalizing P with
  | nil => exact List.forall_mem_nil _
  | cons param params ih =>
    exact List.forall_mem_cons.2 ⟨h, ih (P := P.after [param.text]) h⟩

theorem Definition.program_visitsOfMembers (h : P.program = n) (ds : List Definition) :
    ∀ v ∈ Definition.visitsOfMembers P ds, v.place.program = n := by
  induction ds generalizing P with
  | nil => exact List.forall_mem_nil _
  | cons d rest ih =>
    simp only [Definition.visitsOfMembers, List.cons_append, List.forall_mem_cons,
      List.forall_mem_append]
    exact ⟨h, Expr.program_visitsOptional h d.initial, h, ih (P := P.after [d.name.text]) h⟩

end

mutual

theorem Stmt.program_visits {n : Nat} {P : Place} (h : P.program = n) (s : Stmt) :
    ∀ v ∈ s.visits P, v.place.program = n := by
  match s with
  | .hole =>
    simp only [Stmt.visits, List.forall_mem_cons]
    exact ⟨h, List.forall_mem_nil _⟩
  | .expression _ value | .print _ value =>
    simp only [Stmt.visits, List.forall_mem_cons]
    exact ⟨h, value.program_visits h⟩
  | .define d =>
    simp only [Stmt.visits, List.forall_mem_cons]
    exact ⟨h, h, Expr.program_visitsOptional (P := P.initializer d.name.text) h d.initial⟩
  | .block _ body =>
    simp only [Stmt.visits, List.forall_mem_cons]
    exact ⟨h, Stmt.program_visitsOfList (P := P.enter _) h body⟩
  | .operation o =>
    simp only [Stmt.visits, List.forall_mem_cons]
    exact ⟨h, h, Operation.program_visits (P := P.after [o.name.text]) h o⟩
  | .conditional _ condition branch arms none =>
    simp only [Stmt.visits, List.cons_append, List.forall_mem_cons, List.forall_mem_append]
    exact ⟨h, ⟨condition.program_visits h, Stmt.program_visits (P := P.child 0) h branch⟩,
      Arm.program_visitsOfList (P := (P.after branch.declares).child 1) h arms⟩
  | .conditional _ condition branch arms (some otherwise) =>
    simp only [Stmt.visits, List.cons_append, List.forall_mem_cons, List.forall_mem_append]
    exact ⟨h, ⟨⟨condition.program_visits h, Stmt.program_visits (P := P.child 0) h branch⟩,
      Arm.program_visitsOfList (P := (P.after branch.declares).child 1) h arms⟩,
      Stmt.program_visits (P := (P.after (branch.declares ++ Arm.declaresList arms)).child 2) h
        otherwise⟩
  | .arm a =>
    simp only [Stmt.visits, List.forall_mem_cons]
    exact ⟨h, Arm.program_visits h a⟩
  | .loop _ condition body =>
    simp only [Stmt.visits, List.cons_append, List.forall_mem_cons, List.forall_mem_append]
    exact ⟨h, condition.program_visits h, Stmt.program_visits (P := P.child 0) h body⟩
  | .return _ value =>
    simp only [Stmt.visits, List.forall_mem_cons]
    exact ⟨h, Expr.program_visitsOptional h value⟩
  | .object _ name methods =>
    simp only [Stmt.visits, List.forall_mem_cons]
    exact ⟨h, h, Operation.program_visitsOfList (P := (P.after [name.text]).object) h methods⟩
  | .enum .. =>
    simp only [Stmt.visits, List.forall_mem_cons]
    exact ⟨h, h, List.forall_mem_nil _⟩
  | .form _ name members =>
    simp only [Stmt.visits, List.forall_mem_cons]
    exact ⟨h, h, Definition.program_visitsOfMembers (P := P.after [name.text]) h members⟩

theorem Stmt.program_visitsOfList {n : Nat} {P : Place} (h : P.program = n) (ss : List Stmt) :
    ∀ v ∈ Stmt.visitsOfList P ss, v.place.program = n := by
  match ss with
  | [] => exact List.forall_mem_nil _
  | s :: ss =>
    exact List.forall_mem_append.2 ⟨Stmt.program_visits (P := P.child 0) h s,
      Stmt.program_visitsOfList (P := (P.after s.declares).child 1) h ss⟩

theorem Operation.program_visits {n : Nat} {P : Place} (h : P.program = n) (o : Operation) :
    ∀ v ∈ o.visits P, v.place.program = n := by
  match o with
  | ⟨token, name, params, body⟩ =>
    exact List.forall_mem_append.2 ⟨Token.program_visitsOfParams (P := P.operation _) h params,
      Stmt.program_visitsOfList
        (P := (P.operation ⟨token, name, params, body⟩).after (params.map (·.text))) h body⟩

theorem Operation.program_visitsOfList {n : Nat} {P : Place} (h : P.program = n)
    (os : List Operation) : ∀ v ∈ Operation.visitsOfList P os, v.place.program = n := by
  match os with
  | [] => exact List.forall_mem_nil _
  | o :: os =>
    simp only [Operation.visitsOfList, List.cons_append, List.forall_mem_cons,
      List.forall_mem_append]
    exact ⟨h, Operation.program_visits (P := P.child 0) h o,
      Operation.program_visitsOfList (P := P.child 1) h os⟩

theorem Arm.program_visits {n : Nat} {P : Place} (h : P.program = n) (a : Arm) :
    ∀ v ∈ a.visits P, v.place.program = n := by
  match a with
  | ⟨_, condition, branch⟩ =>
    exact List.forall_mem_append.2 ⟨condition.program_visits h, Stmt.program_visits h branch⟩

theorem Arm.program_visitsOfList {n : Nat} {P : Place} (h : P.program = n) (as : List Arm) :
    ∀ v ∈ Arm.visitsOfList P as, v.place.program = n := by
  match as with
  | [] => exact List.forall_mem_nil _
  | a :: rest =>
    simp only [Arm.visitsOfList, List.cons_append, List.forall_mem_cons, List.forall_mem_append]
    exact ⟨h, Arm.program_visits (P := P.child 0) h a,
      Arm.program_visitsOfList (P := (P.after a.declares).child 1) h rest⟩

end

/-- The texts of a session: its programs as they are after resolution. -/
def Texts.ofSession (programs : List (Nat × Program)) (strict : Nat → Prop) : Texts where
  visits v := ∃ entry, programs[v.place.program]? = some entry ∧
    v ∈ entry.2.resolve.program.visits v.place.program
  strict := strict

theorem Texts.visits_ofSession {programs : List (Nat × Program)} {strict : Nat → Prop} {n : Nat}
    {entry : Nat × Program} (hn : programs[n]? = some entry) {v : Visit}
    (hv : v ∈ entry.2.resolve.program.visits n) : (Texts.ofSession programs strict).visits v := by
  obtain rfl : v.place.program = n := Stmt.program_visitsOfList (P := .top n) rfl _ v hv
  exact ⟨entry, hn, hv⟩

theorem Module.fits_entries (m : Module) (w : World) : ∀ entry ∈ m.entries, entry.2.Fits w := by
  cases m <;> simp [Module.entries, Module.natives, Value.Fits]

variable {T : Texts}

theorem World.sound_root : World.Sound T ⟨{ Store.empty with scopes := Scopes.empty.pushRoot.1 }, 0,
    fun _ => [], fun _ => ⟨.top 0, false⟩⟩ := by
  refine ⟨Nat.zero_lt_one, rfl, rfl, ?_, ?_, nofun, nofun, nofun, nofun⟩
  · intro i hi hne
    exact absurd (Nat.lt_one_iff.1 hi) hne
  · intro i x v hv
    obtain rfl : i = 0 := Nat.lt_one_iff.1 (Scopes.lt_size_of_get?_eq_some _ hv)
    exact absurd hv nofun

/-- What the end of a program adds to its run are events. -/
theorem Machine.interpret_eq (m : Machine) (fuel : Nat) (p : Program) :
    let m' := ((p.run fuel).run m).2
    (m.interpret fuel p).2.store = m'.store ∧ (m.interpret fuel p).2.globals = m'.globals ∧
      ((m.interpret fuel p).2.current = m'.current ∨
        (m.interpret fuel p).2.current = m'.globals) := by
  rw [Machine.interpret]
  rcases (p.run fuel).run m with ⟨(f | _ | _) | _, m'⟩
  · exact ⟨rfl, rfl, .inr rfl⟩
  · exact ⟨rfl, rfl, .inl rfl⟩
  · exact ⟨rfl, rfl, .inl rfl⟩
  · exact ⟨rfl, rfl, .inl rfl⟩

namespace Observed

theorem fine_start (clock : Clock) (modules : List Module) :
    (start clock (modules.flatMap Module.entries)).Fine T := by
  refine ⟨?_, fun x hx => absurd hx List.not_mem_nil⟩
  have hfits : ∀ w, ∀ entry ∈ Module.core ++ modules.flatMap Module.entries, entry.2.Fits w := by
    intro w
    rw [List.forall_mem_append]
    refine ⟨by simp [Module.core, Module.natives, Value.Fits], ?_⟩
    intro entry hentry
    obtain ⟨m, -, hm⟩ := List.mem_flatMap.1 hentry
    exact m.fits_entries w entry hm
  have hsound := (World.sound_root (T := T)).defineAll (i := 0) (hfits _) nofun
  rw [World.store_defineAll] at hsound
  exact hsound

/-- The end of a program does not touch the world that its run leaves. -/
theorem world_interpret (o : Observed) (program fuel : Nat) (p : Program) :
    (o.interpret program fuel p).state.world =
      ((Program.watch fuel (.top program) p).run o).2.state.world := by
  obtain ⟨hstore, hglobals, -⟩ := o.state.machine.interpret_eq fuel p
  rw [Program.erases fuel (.top program) p o] at hstore hglobals
  exact World.ext hstore hglobals rfl rfl

structure Resting (T : Texts) (o : Observed) : Prop where
  fine : o.Fine T
  current : o.state.machine.current = o.state.machine.globals

theorem Resting.interpret (hT : T.Plain) {o : Observed} (h : o.Resting T) {program : Nat}
    (fuel : Nat) {p : Program} (hv : ∀ v ∈ p.visits program, T.visits v) :
    (o.interpret program fuel p).Resting T := by
  have ha : o.state.world.Activates T (.top program) o.state.machine.current := by
    rw [h.current]
    exact ⟨h.fine.sound.globals_lt, h.fine.sound.globals_regions, fun _ k layer x hk => nomatch hk⟩
  obtain ⟨hl, -⟩ := Program.keeps hT fuel h.fine ha rfl rfl hv
  obtain ⟨-, hglobals, hcurrent⟩ := o.state.machine.interpret_eq fuel p
  rw [Program.erases fuel (.top program) p o] at hglobals hcurrent
  refine ⟨⟨(o.world_interpret program fuel p).symm ▸ hl.fine.sound, hl.fine.past⟩, ?_⟩
  change (o.state.machine.interpret fuel p).2.current = (o.state.machine.interpret fuel p).2.globals
  rw [hglobals]
  rcases hcurrent with hcurrent | hcurrent
  · rw [hcurrent, hl.current, h.current]
    exact hl.grows.globals.symm
  · exact hcurrent

theorem Resting.interpretAll (hT : T.Plain) {o : Observed} (h : o.Resting T) {first : Nat}
    {programs : List (Nat × Program)}
    (hv : ∀ n (entry : Nat × Program), programs[n]? = some entry →
      ∀ v ∈ entry.2.resolve.program.visits (first + n), T.visits v) :
    (o.interpretAll first programs).Resting T := by
  induction programs generalizing o first with
  | nil => exact h
  | cons entry rest ih =>
    refine ih (h.interpret hT entry.1 (hv 0 entry rfl)) fun n later hn => ?_
    rw [Nat.add_assoc, Nat.add_comm 1 n]
    exact hv (n + 1) later hn

end Observed

/-- A session of programs that begins with the given modules loaded. -/
def Observed.session (clock : Clock) (modules : List Module) (programs : List (Nat × Program)) :
    Observed :=
  (Observed.start clock (modules.flatMap Module.entries)).interpretAll 0 programs

/-- Every moment of a session agrees with the texts of the session. -/
theorem Observed.session_agrees (clock : Clock) (modules : List Module)
    {programs : List (Nat × Program)} {strict : Nat → Prop}
    (hT : (Texts.ofSession programs strict).Plain) :
    ∀ x ∈ (Observed.session clock modules programs).past,
      x.Agrees (Texts.ofSession programs strict) := by
  have hstart : (Observed.start clock (modules.flatMap Module.entries)).Resting
      (Texts.ofSession programs strict) := ⟨fine_start clock modules, rfl⟩
  refine (hstart.interpretAll hT fun n entry hn v hv => ?_).fine.past
  rw [Nat.zero_add] at hv
  exact Texts.visits_ofSession hn hv

end Treescript
