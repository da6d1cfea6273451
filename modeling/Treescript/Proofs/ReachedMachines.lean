import Treescript.Proofs.ResolvedPrograms
import Treescript.Proofs.SoundEvaluations

/-!
# Machines that sessions reach

A session starts with modules and runs programs one after the other, each with any numbers of hops:
those that resolution gives, others, or none. All machines that it comes to are sound, and if the
programs of the session have been decoded, evaluation never comes upon a fault of the tree, neither
a hole nor an operator without a meaning, and every call has its arguments.
-/

namespace Treescript

/-- The machines that a session of programs of some sort can come to. -/
inductive Machine.Reached (accepted : Program → Prop) : Machine → Prop
  | start (clock : Clock) (modules : List Module) :
    Reached accepted (.start clock (modules.flatMap Module.entries))
  | interpret {m : Machine} {p q : Program} (h : m.Reached accepted) (fuel : Nat) (hp : accepted p)
    (hq : q.unnumbered = p.unnumbered) : Reached accepted (m.interpret fuel q).2

def Program.Decoded (p : Program) : Prop := ∃ ds, Document.program ds = .ok p

variable {strict : Prop}

theorem Program.proper_of_unnumbered {p q : Program} (h : q.unnumbered = p.unnumbered)
    (hp : p.Proper) : q.Proper := by
  have hp' : p.unnumbered.Proper := (Stmt.properList_annotate _ _ p).2 hp
  rw [← h] at hp'
  exact (Stmt.properList_annotate _ _ q).1 hp'

theorem Module.live_entries (s : Store) (modules : List Module) :
    ∀ entry ∈ Module.core ++ modules.flatMap Module.entries, entry.2.Live s := by
  have hentries : ∀ m : Module, ∀ entry ∈ m.entries, entry.2.Live s := by
    intro m
    cases m <;> simp [Module.entries, Module.natives, Value.Live]
  rw [List.forall_mem_append]
  refine ⟨by simp [Module.core, Module.natives, Value.Live], fun entry hentry => ?_⟩
  obtain ⟨m, -, hm⟩ := List.mem_flatMap.1 hentry
  exact hentries m entry hm

theorem Store.sound_empty : Store.Sound strict Store.empty := by
  refine ⟨fun v hv => ?_, nofun, nofun⟩
  cases hv with
  | binding i x h => cases h
  | field id fields x hid h => cases hid
  | member t type x ht h => cases ht

namespace Machine

theorem sound_start (clock : Clock) (modules : List Module) :
    (Machine.start clock (modules.flatMap Module.entries)).Sound strict := by
  let root : Store := { Store.empty with scopes := Scopes.empty.push none }
  have hroot : root.Sound strict := by
    refine Store.sound_empty.of_values ⟨.of_scopes (Nat.zero_le _) nofun, Nat.le_refl _⟩ rfl rfl ?_
    exact fun v hv => .inl (hv.of_bindings rfl rfl fun _ _ => Scopes.get?_push ..)
  have hsize := (Store.Extends.defineAll root 0
    (Module.core ++ modules.flatMap Module.entries)).scopes_le
  exact ⟨hroot.defineAll 0 (Module.live_entries root modules), hsize, hsize⟩

theorem Sound.interpret {m : Machine} (h : m.Sound strict) (fuel : Nat) {p : Program}
    (hp : strict → p.Proper) : (m.interpret fuel p).2.Sound strict := by
  have hx : Evaluation.Sound strict ⟨fuel, .program p, m⟩ := ⟨h, hp⟩
  have hend : ((p.run fuel).run m).2.Sound strict := hx.ends.1.sound
  obtain ⟨hstore, hglobals, hcurrent⟩ := m.interpret_eq fuel p
  refine ⟨hstore ▸ hend.store, ?_, ?_⟩
  · rw [hstore, hglobals]
    exact hend.globals_lt
  · rw [hstore]
    rcases hcurrent with heq | heq
    · rw [heq]
      exact hend.current_lt
    · rw [heq]
      exact hend.globals_lt

/-- Every machine of a session is sound. -/
theorem Reached.sound {accepted : Program → Prop} (haccepted : strict → ∀ p, accepted p → p.Proper)
    {m : Machine} (h : m.Reached accepted) : m.Sound strict := by
  induction h with
  | start clock modules => exact sound_start clock modules
  | interpret _ fuel hp hq ih =>
    exact ih.interpret fuel fun hs => Program.proper_of_unnumbered hq (haccepted hs _ hp)

/-- In a session of decoded programs all evaluations are sound. -/
theorem Reached.sound_evaluation {m : Machine} (hm : m.Reached Program.Decoded) {p q : Program}
    (hp : p.Decoded) (hq : q.unnumbered = p.unnumbered) {fuel : Nat} {calls : List Token}
    {x : Evaluation} (hx : Evaluation.Leads ⟨fuel, .program q, m⟩ calls x) : x.Sound True := by
  have hproper : ∀ p : Program, p.Decoded → p.Proper := fun p ⟨ds, h⟩ => Document.program_proper h
  have hrun : Evaluation.Sound True ⟨fuel, .program q, m⟩ :=
    ⟨hm.sound fun _ => hproper, fun _ => Program.proper_of_unnumbered hq (hproper p hp)⟩
  exact hrun.leads hx

end Machine

end Treescript
