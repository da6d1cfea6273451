import Treescript.Proofs.BoundLocals
import Treescript.Proofs.ReceivedRuns
import Treescript.Proofs.ScopeAgreement
import Treescript.Proofs.StoreHistory

/-!
# `self` is the receiver

Resolution gives `self` the hops to the nearest scope around methods, and evaluation makes such a
scope only when it binds a method. In a session of programs without faults that give the name `self`
to nothing of their own, the two belong together: wherever `self` is evaluated, however much later
and whoever calls, it is the instance that the innermost method around it was bound to.
-/

namespace Treescript

theorem Visit.namesSelf_annotate (look : Numbering) (v : Visit) :
    (v.annotate look).NamesSelf ↔ v.NamesSelf := by
  obtain ⟨(e | s) | d | o | name, P⟩ := v
  · cases e <;> exact Iff.rfl
  all_goals exact Iff.rfl

theorem Texts.selfless_ofSession {programs : List (Nat × Program)} {strict : Nat → Prop}
    (h : ∀ (n : Nat) (entry : Nat × Program), programs[n]? = some entry →
      ∀ v ∈ entry.2.visits n, ¬v.NamesSelf) : (Texts.ofSession programs strict).Selfless := by
  rintro v ⟨entry, hentry, hv⟩
  rw [Program.visits_resolve] at hv
  obtain ⟨u, hu, rfl⟩ := List.mem_map.1 hv
  rw [Visit.namesSelf_annotate]
  exact h _ entry hentry u hu

variable {T : Texts}

theorem World.manned_root : World.Manned T ⟨{ Store.empty with scopes := Scopes.empty.pushRoot.1 },
    0, fun _ => [], fun _ => ⟨.top 0, false⟩⟩ [] := by
  refine ⟨nofun, nofun, nofun, nofun, fun i o hi => ?_, nofun, nofun⟩
  cases i with
  | zero => cases hi
  | succ i => cases hi

theorem Module.entries_ne_self (m : Module) : ∀ entry ∈ m.entries, entry.1 ≠ selfName := by
  cases m <;> decide

/-- A program is run in the globals, and leaves the machine there. -/
theorem Machine.current_interpret {m : Machine} (h : m.current = m.globals) (fuel : Nat)
    (p : Program) : (m.interpret fuel p).2.current = m.current ∧
      (m.interpret fuel p).2.globals = m.globals := by
  obtain ⟨-, hglobals, hcurrent⟩ := m.interpret_eq fuel p
  have hrun := (Program.continues fuel p).later m
  refine ⟨?_, hglobals.trans hrun.globals⟩
  rcases hcurrent with hcurrent | hcurrent
  · exact hcurrent.trans hrun.current
  · rw [hcurrent, hrun.globals, h]

namespace Observed

theorem manned_start (clock : Clock) (modules : List Module) :
    (start clock (modules.flatMap Module.entries)).Manned T := by
  have hnames : ∀ entry ∈ Module.core ++ modules.flatMap Module.entries, entry.1 ≠ selfName := by
    rw [List.forall_mem_append]
    refine ⟨by decide, fun entry hentry => ?_⟩
    obtain ⟨m, -, hm⟩ := List.mem_flatMap.1 hentry
    exact m.entries_ne_self entry hm
  have hq := Store.Quiet.defineAll { Store.empty with scopes := Scopes.empty.pushRoot.1 } 0 hnames
  refine ⟨World.manned_root.of_quiet hq rfl rfl, ?_, ?_, ?_⟩
  · exact Nat.zero_lt_one.trans_eq hq.size.symm
  · intro hb
    exact absurd ((congrArg Option.isSome (hq.self 0)).symm.trans hb) nofun
  · intro later x earlier heq
    exact absurd heq.symm (List.append_ne_nil_of_right_ne_nil _ (List.cons_ne_nil _ _))

theorem Manned.interpret (hT : T.Selfless) {o : Observed} (h : o.Manned T)
    (hglobal : o.state.machine.current = o.state.machine.globals) {program : Nat} (fuel : Nat)
    {p : Program} (hv : ∀ v ∈ p.visits program, T.visits v) :
    (o.interpret program fuel p).Manned T ∧ (o.interpret program fuel p).state.machine.current =
      (o.interpret program fuel p).state.machine.globals := by
  have hturns := Program.mans hT fuel hv h
  obtain ⟨hcurrent, hglobals⟩ := Machine.current_interpret hglobal fuel p
  have hworld := o.world_interpret program fuel p
  have hstays : (o.interpret program fuel p).state.machine.current =
      ((Program.watch fuel (.top program) p).run o).2.state.machine.current :=
    hcurrent.trans hturns.current.symm
  refine ⟨⟨?_, ?_, ?_, hturns.manned.past⟩, hcurrent.trans (hglobal.trans hglobals.symm)⟩
  · rw [hworld]
    exact hturns.manned.world
  · rw [hworld, hstays]
    exact hturns.manned.current_lt
  · rw [hworld, hstays]
    exact hturns.manned.current

theorem Manned.interpretAll (hT : T.Selfless) {o : Observed} (h : o.Manned T)
    (hglobal : o.state.machine.current = o.state.machine.globals) {first : Nat}
    {programs : List (Nat × Program)}
    (hv : ∀ n (entry : Nat × Program), programs[n]? = some entry →
      ∀ v ∈ entry.2.resolve.program.visits (first + n), T.visits v) :
    (o.interpretAll first programs).Manned T := by
  induction programs generalizing o first with
  | nil => exact h
  | cons entry rest ih =>
    obtain ⟨h', hglobal'⟩ := h.interpret hT hglobal entry.1 (hv 0 entry rfl)
    refine ih h' hglobal' fun n later hn => ?_
    rw [Nat.add_assoc, Nat.add_comm 1 n]
    exact hv (n + 1) later hn

theorem manned_session (clock : Clock) (modules : List Module) {programs : List (Nat × Program)}
    {strict : Nat → Prop} (hT : (Texts.ofSession programs strict).Selfless) :
    (session clock modules programs).Manned (Texts.ofSession programs strict) := by
  refine (manned_start clock modules).interpretAll hT rfl fun n entry hn v hv => ?_
  rw [Nat.zero_add] at hv
  exact Texts.visits_ofSession hn hv

end Observed

/-- The operation at the place is the innermost method around the regions, a number of them being
inside it. -/
structure Operation.MethodAround (T : Texts) (o : Operation) (P : Place) (D : Nat)
    (regions : List Region) : Prop where
  method : T.visits ⟨.method o, P⟩
  object : ∃ region outer, P.regions = region :: outer ∧ region.names = [selfName]
  around : regions.drop D = (P.operation o).regions
  innermost : ∀ region ∈ regions.take D, selfName ∉ region.names

/-- The scope is that of a call of the operation, and of no other. -/
structure Labelled.CallOf (s : Labelled) (id : Nat) (c : Closure) (scope : ScopeId) : Prop where
  closure : s.machine.store.closures[id]? = some c
  outer : s.machine.store.scopes.outer? scope = some c.scope
  only : ∀ (id' : Nat) (c' : Closure), s.machine.store.closures[id']? = some c' →
    c'.scope = c.scope → id' = id
  regions : s.regions scope = ((s.origins id).place.operation c.declaration).regions

namespace Moment

variable {x : Moment} {earlier : List Moment}

theorem Agrees.exists_receiver (h : x.Agrees T) (hm : x.state.world.Manned T earlier)
    (hin : x.place.Inner) (ho : x.place.inObject) :
    ∃ t i D id c activation, x.place.distance? selfName = some (D + 1) ∧
      x.state.machine.store.scopes.getAt? (D + 1) x.state.machine.current selfName =
        some (.holder (.object t) i) ∧
      x.state.machine.store.scopes.ancestor? D x.state.machine.current = some activation ∧
      x.state.CallOf id c activation ∧
      c.declaration.MethodAround T (x.state.origins id).place D x.place.regions ∧
      ∃ y ∈ earlier, y.Binds id (.holder (.object t) i) := by
  obtain ⟨D, region, outer, hdist, hobject, hnames, hinner⟩ := hin.drop_regions ho
  have hlen : D + 1 < x.place.regions.length := by
    rw [Place.regions, List.length_map]
    exact Place.lt_length_of_distance? hdist
  obtain ⟨activation, hact, -, hregions⟩ := h.ancestor (k := D) (by omega)
  obtain ⟨scope, hscope, hlt, hregions'⟩ := h.ancestor (k := D + 1) hlen.le
  have houter : x.state.machine.store.scopes.outer? activation = some scope := by
    rw [Scopes.ancestor?_succ_eq_bind, hact] at hscope
    exact hscope
  -- the scope binds `self`, so it was made for a method, and the scope inside it is a call of that
  have hbound := hm.bound scope hlt region outer (hregions'.trans hobject)
    (hnames ▸ List.mem_singleton_self _)
  obtain ⟨id, c, hc, rfl, hcalls⟩ := hm.calls activation scope houter hbound
  obtain ⟨hmethod, t, i, hget, hy⟩ := hm.received id c hc hbound
  have haround := hregions.symm.trans hcalls
  refine ⟨t, i, D, id, c, activation, hdist, ?_, hact, ?_, ?_, hy⟩
  · rw [Scopes.getAt?, hscope]
    exact hget
  · exact ⟨hc, houter, fun id' c' hc' heq => hm.unique id id' c c' hc hc' hbound heq, hcalls⟩
  · refine ⟨hmethod, ⟨region, outer, ?_, hnames⟩, haround, hinner⟩
    rw [← hobject, ← List.tail_drop, haround]
    rfl

end Moment

/-- In a program without faults `self` stands in an object, with the hops to the nearest scope that
declares it. -/
theorem Program.self_place {p : Program} {n : Nat} (hclean : p.resolve.diagnostics = [])
    (hself : ∀ v ∈ p.visits n, ¬v.NamesSelf) {keyword : Token} {hops : Option Nat} {P : Place}
    (h : ⟨.node (.expr (.self keyword hops)), P⟩ ∈ p.resolve.program.visits n) :
    P.Inner ∧ P.inObject ∧ hops = P.distance? selfName := by
  rw [Program.visits_resolve] at h
  obtain ⟨⟨item, Q⟩, hv, hann⟩ := List.mem_map.1 h
  obtain ⟨hitem, rfl⟩ := Visit.mk.inj hann
  obtain ⟨e, rfl, he⟩ := Item.exists_of_annotate_eq_expr hitem
  have hinside := Stmt.inside_visitsOfList (Place.inner_top n) p hself _ hv e rfl
  have hfault := p.fault?_eq_none hclean n _ hv
  have hhops := Expr.hops?_annotate Place.distance? Q e
  rw [← he] at hhops
  cases e with
  | self keyword' hops' =>
    have hin : Q.inObject := by
      by_contra hout
      simp [Visit.fault?, hout] at hfault
    simp only [Expr.hops?, Expr.refersTo?, hin, if_true, Option.bind_some] at hhops
    exact ⟨hinside, hin, hhops⟩
  | _ => cases he

namespace Observed

/-- In every session of programs without faults in which nothing declares `self` or writes to it:
whenever `self` is evaluated, the result is an instance. The innermost method around the node is
running, in a call of an operation that was made by binding the method to that instance: by reading
the method as a property of the instance, or by calling the type of which it is a new instance. -/
theorem session_self_is_receiver (clock : Clock) (modules : List Module)
    {programs : List (Nat × Program)}
    (hclean : ∀ entry ∈ programs, entry.2.resolve.diagnostics = [])
    (hself : ∀ (n : Nat) (entry : Nat × Program), programs[n]? = some entry →
      ∀ v ∈ entry.2.visits n, ¬v.NamesSelf) :
    (session clock modules programs).state.machine =
      (Machine.start clock (modules.flatMap Module.entries)).interpretAll programs ∧
    ∀ later x earlier keyword hops,
      (session clock modules programs).past = later ++ x :: earlier →
      x.sight.seen = .expr (.self keyword hops) →
      ∃ t i D id c scope,
        hops = some (D + 1) ∧
        (∀ fuel, ((Expr.self keyword hops).eval (fuel + 1)).run x.state.machine =
          (.ok (.holder (.object t) i), x.state.machine)) ∧
        c.declaration.MethodAround (Texts.ofSession programs fun _ => False)
          (x.state.origins id).place D x.place.regions ∧
        x.state.machine.store.scopes.ancestor? D x.state.machine.current = some scope ∧
        x.state.CallOf id c scope ∧
        ∃ y ∈ earlier, y.Binds id (.holder (.object t) i) := by
  refine ⟨machine_interpretAll _ 0 programs, fun later x earlier keyword hops hpast hseen => ?_⟩
  have hplain : (Texts.ofSession programs fun _ => False).Plain := fun _ _ hs => hs.elim
  have hmem : x ∈ (session clock modules programs).past := by
    rw [hpast]
    exact List.mem_append_right _ List.mem_cons_self
  have hagrees := session_agrees clock modules hplain x hmem
  have hselfless : (Texts.ofSession programs fun _ => False).Selfless :=
    Texts.selfless_ofSession hself
  have hmanned := (manned_session clock modules hselfless).past later x earlier hpast
  obtain ⟨entry, hentry, hvisit⟩ := hagrees.visit
  rw [hseen] at hvisit
  obtain ⟨hinner, hobject, hhops⟩ := Program.self_place
    (hclean entry (List.mem_of_getElem? hentry)) (hself _ entry hentry) hvisit
  obtain ⟨t, i, D, id, c, scope, hdist, hget, hscope, hcall, hmethod, hy⟩ :=
    hagrees.exists_receiver hmanned hinner hobject
  rw [hdist] at hhops
  refine ⟨t, i, D, id, c, scope, hhops, fun fuel => ?_, hmethod, hscope, hcall, hy⟩
  rw [hhops, Expr.eval, Run.lookup_run, Machine.target?, ← Scopes.getAt?, hget]

end Observed

/-- The method of an object hands out an operation that reads `self`, and the operation is called
after the method has returned. -/
def escapingSelf : Program :=
  [.object .blank ⟨.identifier, "O", 1, .null⟩
    [⟨.blank, ⟨.identifier, "m", 1, .null⟩, [],
      [.operation ⟨.blank, ⟨.identifier, "f", 2, .null⟩, [],
        [.return .blank (some (.self .blank none))]⟩,
      .return .blank (some (.variable ⟨.identifier, "f", 3, .null⟩ none))]⟩],
    .define ⟨.blank, ⟨.identifier, "g", 4, .null⟩, some (.call (.get (.call
      (.variable ⟨.identifier, "O", 4, .null⟩ none) .blank []) ⟨.identifier, "m", 4, .null⟩)
      .blank [])⟩,
    .expression .blank (.call (.variable ⟨.identifier, "g", 5, .null⟩ none) .blank [])]

theorem escapingSelf_receiver : ∃ later x earlier keyword t i id,
    (Observed.session ⟨fun _ => 0, 0⟩ [] [(20, escapingSelf)]).past = later ++ x :: earlier ∧
    (∀ fuel, ((Expr.self keyword (some 2)).eval (fuel + 1)).run x.state.machine =
      (.ok (.holder (.object t) i), x.state.machine)) ∧
    ∃ y ∈ earlier, y.Binds id (.holder (.object t) i) := by
  have hread : (Observed.session ⟨fun _ => 0, 0⟩ [] [(20, escapingSelf)]).past.any
      (·.sight.readsSelf 2) = true := by decide +kernel
  have hclean : ∀ entry ∈ [(20, escapingSelf)], entry.2.resolve.diagnostics = [] :=
    List.forall_mem_singleton.2 rfl
  have hvisits : ∀ v ∈ escapingSelf.visits 0, ¬v.NamesSelf := by decide +kernel
  have hself : ∀ (n : Nat) (entry : Nat × Program), [(20, escapingSelf)][n]? = some entry →
      ∀ v ∈ entry.2.visits n, ¬v.NamesSelf := by
    intro n entry hentry
    obtain ⟨hn, rfl⟩ := List.getElem?_eq_some_iff.1 hentry
    obtain rfl := Nat.lt_one_iff.1 hn
    exact hvisits
  obtain ⟨x, hx, hreads⟩ := List.any_eq_true.1 hread
  obtain ⟨later, earlier, hpast⟩ := List.append_of_mem hx
  obtain ⟨keyword, written, hsight⟩ := Sight.exists_of_readsSelf hreads
  have hseen : x.sight.seen = .expr (.self keyword (some 2)) := by
    rw [hsight]
    rfl
  obtain ⟨-, hall⟩ := Observed.session_self_is_receiver ⟨fun _ => 0, 0⟩ [] hclean hself
  obtain ⟨t, i, D, id, c, scope, -, hvalue, -, -, -, hy⟩ :=
    hall later x earlier keyword (some 2) hpast hseen
  exact ⟨later, x, earlier, keyword, t, i, id, hpast, hvalue, hy⟩

end Treescript
