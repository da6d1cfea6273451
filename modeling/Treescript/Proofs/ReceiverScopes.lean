import Treescript.Proofs.SteppedEvaluations

/-!
# The scopes of receivers

Reading a method makes a scope for its receiver. No evaluation is ever in that scope itself, only in
the scopes of calls inside it. So at every later point of the session `self` is there what has been
assigned to it last, and the receiver if nothing has.
-/

namespace Treescript

/-- Every evaluation that has ended is in the chronicle as a whole. -/
def Chronicle.Whole (c : Chronicle) : Prop :=
  ∀ past x later, c = past ++ .ended x :: later →
    ∃ before, past ++ [.ended x] = before ++ x.chronicle

namespace Chronicle.Whole

variable {c c' : Chronicle}

theorem of_forall (h : ∀ x, .ended x ∉ c) : Whole c := by
  rintro past x later rfl
  exact absurd (List.mem_append_right _ List.mem_cons_self) (h x)

theorem append (h : Whole c) (h' : Whole c') : Whole (c ++ c') := by
  intro past x later heq
  obtain ⟨front, rfl, hc'⟩ | ⟨rest, rfl, hrest⟩ := List.append_eq_append_iff.1 heq
  · obtain ⟨before, hbefore⟩ := h' front x later hc'
    exact ⟨c ++ before, by rw [List.append_assoc, hbefore, List.append_assoc]⟩
  · cases rest with
    | nil =>
      obtain ⟨before, hbefore⟩ := h' [] x later hrest.symm
      exact ⟨past ++ before, by rw [List.append_assoc, ← hbefore, List.nil_append]⟩
    | cons k rest =>
      obtain ⟨rfl, -⟩ := List.cons.inj hrest
      exact h past x rest rfl

/-- The last entry of an evaluation. -/
theorem concat {x : Evaluation} (h : Whole c) (hx : x.chronicle = c ++ [.ended x]) :
    Whole x.chronicle := by
  intro past y later heq
  rw [hx] at heq
  obtain rfl | ⟨later, k, rfl⟩ := List.eq_nil_or_concat' later
  · obtain ⟨rfl, hlast⟩ := List.append_inj' heq rfl
    cases hlast
    exact ⟨[], hx.symm⟩
  · rw [← List.cons_append, ← List.append_assoc] at heq
    obtain ⟨rfl, -⟩ := List.append_inj' heq rfl
    exact h past y later rfl

theorem flatMap {ys : List Evaluation} (h : ∀ y ∈ ys, Whole y.chronicle) :
    Whole (ys.flatMap Evaluation.chronicle) := by
  induction ys with
  | nil => exact of_forall fun _ => List.not_mem_nil
  | cons y ys ih =>
    obtain ⟨hy, hys⟩ := List.forall_mem_cons.1 h
    exact hy.append (ih hys)

end Chronicle.Whole

open Chronicle (Whole)

theorem Evaluation.chronicle_eq_cons (x : Evaluation) :
    ∃ inner, x.chronicle = .begun x :: (inner ++ [.ended x]) := by
  obtain ⟨fuel, t, m⟩ := x
  cases fuel with
  | zero => exact ⟨[], rfl⟩
  | succ fuel => exact ⟨_, chronicle_succ fuel t m⟩

theorem Evaluation.whole_chronicle (x : Evaluation) : Whole x.chronicle := by
  have hsilent : ∀ {c : Chronicle}, (∀ k ∈ c, k.machine? = none) → Whole c := fun h =>
    .of_forall fun x hx => by cases h _ hx
  obtain ⟨fuel, t, m⟩ := x
  induction fuel generalizing t m with
  | zero => exact Whole.concat (c := [.begun ⟨0, t, m⟩]) (.of_forall (by simp)) rfl
  | succ fuel ih =>
    have hparts : Whole ((t.parts fuel m).flatMap chronicle) := by
      refine .flatMap fun y hy => ?_
      obtain ⟨rfl, -⟩ := Job.of_mem_parts hy
      exact ih y.job y.machine
    have hbegun : Whole [.begun ⟨fuel + 1, t, m⟩] := .of_forall (by simp)
    have hopening : Whole t.opening := hsilent fun _ => Job.machine?_of_mem_opening
    have hclosing : Whole (t.closing fuel m) := hsilent fun _ => Job.machine?_of_mem_closing
    exact (hbegun.append ((hopening.append hparts).append hclosing)).concat (chronicle_succ ..)

theorem Program.whole_chronicle (fuel : Nat) (p : Program) (m : Machine) :
    Whole (p.chronicle fuel m) := by
  induction p generalizing m with
  | nil => exact .of_forall fun _ => List.not_mem_nil
  | cons s rest ih =>
    rw [Program.chronicle]
    refine (Evaluation.whole_chronicle _).append ?_
    rcases hx : Evaluation.outcome ⟨fuel, .stmt s, m⟩ with ⟨stop | a, m'⟩
    · rw [Evaluation.whenDone_error hx]
      exact .of_forall fun _ => List.not_mem_nil
    · rw [Evaluation.whenDone_ok hx]
      exact ih m'

theorem Machine.whole_chronicle (m : Machine) (programs : List (Nat × Program)) :
    Whole (m.chronicle programs) := by
  have hidle : ∀ m : Machine, Whole [.idle m] := fun m => .of_forall (by simp)
  induction programs generalizing m with
  | nil => exact hidle m
  | cons entry rest ih =>
    obtain ⟨fuel, p⟩ := entry
    have hprogram : Whole (p.chronicle fuel m) := p.whole_chronicle fuel m
    exact (hidle m).append (hprogram.append (ih (m.interpret fuel p).2))

theorem Chronicle.OfSession.whole {c : Chronicle} (h : c.OfSession) : c.Whole := by
  obtain ⟨clock, modules, programs, rfl⟩ := h
  exact Machine.whole_chronicle _ programs

/-- The scope is there, but nothing that has begun is in it. -/
structure Machine.Avoids (i : ScopeId) (seen : Chronicle) (m : Machine) : Prop where
  lt : i < m.store.scopes.size
  current : i ≠ m.current
  begun : ∀ y, .begun y ∈ seen → i ≠ y.machine.current

namespace Machine.Avoids

variable {i : ScopeId} {c seen later rest : Chronicle} {m m' : Machine} {k : Entry}

theorem advances (h : m.Avoids i seen) (hc : c.Whole) (hseen : c = seen ++ k :: rest)
    (hk : m.Advances k m') : m'.Avoids i (seen ++ [k]) := by
  have hcurrent : i ≠ m'.current := by
    obtain ⟨x, rfl⟩ | hsame | hnew := hk.current
    · -- the evaluation has begun before, in the same scope
      obtain ⟨before, hx⟩ := hc seen x rest hseen
      obtain ⟨inner, hinner⟩ := x.chronicle_eq_cons
      rw [hinner, ← List.cons_append, ← List.append_assoc] at hx
      obtain ⟨rfl, -⟩ := List.append_inj' hx rfl
      obtain rfl : x.outcome.2 = m' := Option.some.inj hk.machine
      rw [x.continues.current]
      exact h.begun x (List.mem_append_right _ List.mem_cons_self)
    · rw [hsame]
      exact h.current
    · exact Nat.ne_of_lt (Nat.lt_of_lt_of_le h.lt hnew)
  refine ⟨Nat.lt_of_lt_of_le h.lt hk.grows.scopes_le, hcurrent, fun y hy => ?_⟩
  obtain hy | hy := List.mem_append.1 hy
  · exact h.begun y hy
  · obtain rfl := List.mem_singleton.1 hy
    obtain rfl : y.machine = m' := Option.some.inj hk.machine
    exact hcurrent

theorem silent (h : m.Avoids i seen) (hk : k.machine? = none) : m.Avoids i (seen ++ [k]) := by
  refine ⟨h.lt, h.current, fun y hy => ?_⟩
  obtain hy | hy := List.mem_append.1 hy
  · exact h.begun y hy
  · obtain rfl := List.mem_singleton.1 hy
    cases hk

/-- From where nothing is in the scope, its variables change by assignments only. -/
theorem get?_eq (h : m.Avoids i seen) (hc : c.Whole) (hseen : c = seen ++ (later ++ rest))
    (hpath : m.Path later m') (x : String) :
    m'.store.scopes.get? i x =
      (Chronicle.assigned? later i x).or (m.store.scopes.get? i x) := by
  -- what has been seen grows along the path, so that an end finds where its evaluation began
  induction hpath generalizing seen with
  | nil m => rfl
  | @entry m m₁ m' k later hk _ ih =>
    have hrest : c = seen ++ [k] ++ (later ++ rest) := hseen.trans (List.append_cons ..)
    rw [ih (h.advances hc hseen hk) hrest, hk.get?_eq h.lt h.current, Chronicle.assigned?_cons,
      Option.or_assoc]
  | @silent m m' k later hk _ ih =>
    have hrest : c = seen ++ [k] ++ (later ++ rest) := hseen.trans (List.append_cons ..)
    rw [ih (h.silent hk) hrest, Chronicle.assigned?_cons, Entry.assigned?_of_silent hk,
      Option.or_none]

end Machine.Avoids

theorem Machine.self_bindSelf (m : Machine) (method : Closure) (receiver : Value) :
    (m.bindSelf method receiver).store.scopes.get? m.store.scopes.size selfName =
      some receiver := by
  refine Scopes.get?_define_self _ ?_ selfName receiver
  exact Nat.lt_of_lt_of_eq (Nat.lt_succ_self _) (Scopes.size_push ..).symm

namespace Chronicle.OfSession

variable {c past rest : Chronicle} {fuel : Nat} {object : Expr} {name : Token} {m m₁ : Machine}
  {receiver : Value}

/-- The path of a session up to an entry, and from there on. -/
theorem path_split (h : c.OfSession) {k : Entry} (hc : c = past ++ k :: rest)
    (hk : k.machine? = some m) :
    ∃ clock modules m', (Machine.start clock modules).Path (past ++ [k]) m ∧ m.Path rest m' := by
  obtain ⟨clock, modules, m', hpath⟩ := h.path
  rw [hc, List.append_cons] at hpath
  obtain ⟨m₁, hpast, hrest⟩ := hpath.of_append
  obtain rfl := hpast.eq_of_concat hk
  exact ⟨clock, modules, m', hpast, hrest⟩

/-- A property is read right after the evaluation of the object. -/
theorem object_ended (h : c.OfSession)
    (hc : c = past ++ .ended ⟨fuel + 1, .expr (.get object name), m⟩ :: rest) :
    ∃ before, past = before ++ [.ended ⟨fuel, .expr object, m⟩] := by
  obtain ⟨before, hwhole⟩ := h.whole past _ rest hc
  obtain ⟨inner, hinner⟩ := Evaluation.chronicle_eq_cons ⟨fuel, .expr object, m⟩
  rw [Evaluation.chronicle_succ, Job.parts, List.flatMap_singleton, hinner, ← List.cons_append,
    ← List.append_assoc] at hwhole
  obtain ⟨rfl, -⟩ := List.append_inj' hwhole rfl
  refine ⟨before ++ .begun ⟨fuel + 1, .expr (.get object name), m⟩ ::
    .begun ⟨fuel, .expr object, m⟩ :: inner, ?_⟩
  simp [Job.opening, Job.closing]

/-- The scope that reading a method makes for the receiver. -/
theorem avoids_receiver (h : c.OfSession)
    (hc : c = past ++ .ended ⟨fuel + 1, .expr (.get object name), m⟩ :: rest)
    (hobject : Evaluation.outcome ⟨fuel, .expr object, m⟩ = (.ok receiver, m₁)) (method : Closure) :
    (m₁.bindSelf method receiver).Avoids m₁.store.scopes.size
      (past ++ [.ended ⟨fuel + 1, .expr (.get object name), m⟩]) := by
  obtain ⟨before, rfl⟩ := h.object_ended hc
  have hmachine : (Entry.ended ⟨fuel, .expr object, m⟩).machine? = some m₁ := by
    rw [Entry.machine?, hobject]
  have hcurrent : ∀ k ∈ c, ∀ m, k.machine? = some m → m.current < m.store.scopes.size :=
    fun k hk m hm => ((h.sound k hk).machine m hm).current_lt
  refine ⟨?_, ?_, fun y hy => ?_⟩
  · have hsize : (m₁.store.enterScope method.scope).1.scopes.size = m₁.store.scopes.size + 1 :=
      Scopes.size_push ..
    refine Nat.lt_of_lt_of_eq ?_ (Scopes.size_define ..).symm
    exact hsize ▸ Nat.lt_succ_self _
  · exact (Nat.ne_of_lt (hcurrent _ (by simp [hc]) m₁ hmachine)).symm
  · -- whatever has begun has begun before, when the scope was not there
    have hbefore : .begun y ∈ before := by simpa using hy
    have hpairs := h.pairwise
    rw [hc, List.append_assoc, List.filterMap_append, List.pairwise_append] at hpairs
    have hendures := hpairs.2.2 y.machine (List.mem_filterMap.2 ⟨_, hbefore, rfl⟩) m₁
      (List.mem_filterMap.2 ⟨_, List.mem_cons_self, hmachine⟩)
    have hlt := hcurrent (.begun y) (by simp [hc, hbefore]) y.machine rfl
    exact (Nat.ne_of_lt (Nat.lt_of_lt_of_le hlt hendures.scopes_le)).symm

/-- At every point after a method has been read, the operation is there, and `self` is in its scope
what has been assigned to it last. -/
theorem receiver_at (h : c.OfSession) {between later : Chronicle} {k : Entry} {m' : Machine}
    (hc : c = past ++ .ended ⟨fuel + 1, .expr (.get object name), m⟩ :: (between ++ k :: later))
    (hobject : Evaluation.outcome ⟨fuel, .expr object, m⟩ = (.ok receiver, m₁)) {method : Closure}
    (hread : (Evaluation.outcome ⟨fuel + 1, .expr (.get object name), m⟩).2 =
      m₁.bindSelf method receiver)
    (hk : k.machine? = some m') :
    m'.store.closures[m₁.store.closures.size]? =
        some { method with scope := m₁.store.scopes.size } ∧
      m'.store.scopes.get? m₁.store.scopes.size selfName =
        ((between ++ [k]).assigned? m₁.store.scopes.size selfName).or (some receiver) := by
  have hmachine : (Entry.ended ⟨fuel + 1, .expr (.get object name), m⟩).machine? =
      some (m₁.bindSelf method receiver) := congrArg some hread
  obtain ⟨clock, modules, end_, -, hrest⟩ := h.path_split hc hmachine
  rw [List.append_cons] at hrest
  obtain ⟨m₂, hpath, -⟩ := hrest.of_append
  obtain rfl := hpath.eq_of_concat hk
  have havoids := h.avoids_receiver hc hobject method
  have hbound := Store.closures_bindSelf m₁.store method receiver
  refine ⟨hpath.grows.closures _ _ hbound, ?_⟩
  rw [← m₁.self_bindSelf method receiver]
  have hsplit : c = (past ++ [.ended ⟨fuel + 1, .expr (.get object name), m⟩]) ++
      (between ++ [k] ++ later) := by
    simp [hc]
  exact havoids.get?_eq h.whole hsplit hpath selfName

end Chronicle.OfSession

end Treescript
