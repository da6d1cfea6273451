import Treescript.Proofs.ReachedMachines
import Treescript.Proofs.ReturnedValues

/-!
# The top level of accepted programs

Resolution comes to every statement and expression at a place, and it has returns in operations only
and references to the enclosing scope in local scopes only. What a run evaluates outside of the
operations it calls is at a place of the same level, so an accepted program neither returns from its
top level nor looks above it.
-/

namespace Treescript

/-- Places that allow for the same returns and the same references to an enclosing scope. -/
structure Place.Level (P Q : Place) : Prop where
  inOperation : Q.inOperation = P.inOperation
  isLocal : Q.isLocal = P.isLocal

namespace Place.Level

variable {P Q : Place}

theorem refl (P : Place) : P.Level P := ⟨rfl, rfl⟩

theorem child (h : P.Level Q) (i : Nat) : P.Level (Q.child i) := ⟨h.inOperation, h.isLocal⟩

theorem after (h : P.Level Q) (names : List String) : P.Level (Q.after names) := by
  refine ⟨h.inOperation, ?_⟩
  rw [← h.isLocal]
  obtain ⟨_, _, layers, _, _, _⟩ := Q
  cases layers <;> rfl

theorem initializer (h : P.Level Q) (name : String) : P.Level (Q.initializer name) :=
  ⟨h.inOperation, (h.after [name]).isLocal⟩

theorem trans {R : Place} (h : P.Level Q) (h' : Q.Level R) : P.Level R :=
  ⟨h'.inOperation.trans h.inOperation, h'.isLocal.trans h.isLocal⟩

end Place.Level

namespace Job

/-- What resolution visits of a job. The bodies of operations have been visited where they are
declared. -/
def visits (P : Place) : Job → List Visit
  | expr e => e.visits P
  | exprs es => (Expr.partsOfList es).map fun part => ⟨.node (.expr part), P⟩
  | optional e? => Expr.visitsOptional P e?
  | invocation .. | application .. => []
  | stmt s => s.visits P
  | stmts ss | program ss => Stmt.visitsOfList P ss
  | arms as => Arm.visitsOfList P as
  | rounds condition body => condition.visits P ++ body.visits (P.child 0)
  | members ds _ => Definition.visitsOfMembers P ds

/-- Whatever is visited of the second job is visited of the first, at the same level. -/
def Includes (t u : Job) : Prop := ∀ P, ∃ Q, P.Level Q ∧ u.visits Q ⊆ t.visits P

theorem Includes.expr {e part : Expr} (h : part.parts ⊆ e.parts) :
    Includes (.expr e) (.expr part) :=
  fun P => ⟨P, .refl P, List.map_subset _ h⟩

theorem Includes.trans {t u w : Job} (h : t.Includes u) (h' : u.Includes w) : t.Includes w := by
  intro P
  obtain ⟨Q, hQ, hu⟩ := h P
  obtain ⟨R, hR, hw⟩ := h' Q
  exact ⟨R, hQ.trans hR, List.Subset.trans hw hu⟩

theorem Includes.of_eq_nil {t u : Job} (h : ∀ P, u.visits P = []) : Includes t u :=
  fun P => ⟨P, .refl P, by simp [h P]⟩

end Job

/-- All evaluations are later ones in the same scope, of jobs that are included in a given one. -/
def Evaluation.Inside (m : Machine) (t : Job) (ys : List Evaluation) : Prop :=
  ∀ y ∈ ys, m.Continues y.machine ∧ t.Includes y.job

namespace Evaluation.Inside

variable {m m' : Machine} {t u : Job}

theorem nil : Inside m t [] := nofun

theorem single (fuel : Nat) (hm : m.Continues m') (hu : t.Includes u) :
    Inside m t [⟨fuel, u, m'⟩] :=
  List.forall_mem_singleton.2 ⟨hm, hu⟩

theorem part (fuel : Nat) {next : u.Result → Machine → List Evaluation} (hm : m.Continues m')
    (hu : t.Includes u)
    (hnext : ∀ a m₁, outcome ⟨fuel, u, m'⟩ = (.ok a, m₁) → m.Continues m₁ →
      Inside m t (next a m₁)) :
    Inside m t (andThen ⟨fuel, u, m'⟩ next) := by
  intro y hy
  rcases mem_andThen.1 hy with rfl | ⟨a, m₁, hout, hy⟩
  · exact ⟨hm, hu⟩
  · have hlater : m'.Continues m₁ := by
      have h := continues ⟨fuel, u, m'⟩
      rwa [hout] at h
    exact hnext a m₁ hout (hm.trans hlater) y hy

end Evaluation.Inside

open Evaluation.Inside

theorem Expr.inside (fuel : Nat) (m : Machine) (e : Expr) :
    Evaluation.Inside m (.expr e) (Job.parts fuel m (.expr e)) := by
  cases e with
  | hole | literal | «variable» | self | parent | global => exact nil
  | assign | unary | count | group | get =>
    exact single fuel (.refl m) (.expr (by simp [Expr.parts]))
  | binary left _ right =>
    refine part fuel (.refl m) (.expr (by simp [Expr.parts])) fun _ m₁ _ h₁ => ?_
    exact single fuel h₁ (.expr (by simp [Expr.parts]))
  | logical left operator right =>
    refine part fuel (.refl m) (.expr (by simp [Expr.parts])) fun _ m₁ _ h₁ => ?_
    split
    · exact nil
    · exact single fuel h₁ (.expr (by simp [Expr.parts]))
  | set object _ value =>
    refine part fuel (.refl m) (.expr (by simp [Expr.parts])) fun _ m₁ _ h₁ => ?_
    exact single fuel h₁ (.expr (by simp [Expr.parts]))
  | call callee paren args =>
    have hargs : Job.Includes (.expr (.call callee paren args)) (.exprs args) :=
      fun P => ⟨P, .refl P, List.map_subset _ (by simp [Expr.parts])⟩
    refine part fuel (.refl m) (.expr (by simp [Expr.parts])) fun _ m₁ _ h₁ => ?_
    refine part fuel h₁ hargs fun _ m₂ _ h₂ => ?_
    split
    · exact single fuel h₂ (.of_eq_nil fun _ => rfl)
    · exact nil

theorem Value.inside (fuel : Nat) (m : Machine) (callee : Value) (args : List Value) :
    Evaluation.Inside m (.invocation callee args) (Job.parts fuel m (.invocation callee args)) := by
  cases callee with
  | operation id =>
    intro y hy
    obtain ⟨closure, -, rfl⟩ := List.mem_map.1 hy
    exact ⟨.refl m, .of_eq_nil fun _ => rfl⟩
  | type t =>
    intro y hy
    obtain ⟨method, -, rfl⟩ := List.mem_map.1 hy
    have hmade : m.Continues m.addHolder :=
      ⟨⟨Nat.le_refl _, fun _ _ => rfl, fun _ _ => id, fun _ _ => id, fun _ _ => id, fun _ _ => id⟩,
        rfl, rfl⟩
    exact ⟨hmade.trans ⟨.bindSelf .., rfl, rfl⟩, .of_eq_nil fun _ => rfl⟩
  | none | native | bool | int | float | text | holder => exact nil

theorem Arm.mem_of_choose {fuel : Nat} {as : List Arm} {m m' : Machine} {s : Stmt}
    (h : (Arm.choose fuel as).run m = (.ok (some s), m')) : ∃ a ∈ as, a.branch = s := by
  induction fuel generalizing as m m' s with
  | zero => cases h
  | succ fuel ih =>
    match as with
    | [] => cases h
    | ⟨token, condition, branch⟩ :: rest =>
      rw [Arm.choose, run_bind_eq] at h
      split at h
      · next v m₁ _ =>
        rw [run_bind_eq] at h
        split at h
        · next later m₂ hrest =>
          have hlater : ∀ {s}, later = some s → ∃ a ∈ rest, a.branch = s := by
            rintro s rfl
            exact ih hrest
          split at h
          · cases h
            obtain ⟨a, ha, hs⟩ := hlater rfl
            exact ⟨a, List.mem_cons_of_mem _ ha, hs⟩
          · cases h
            exact ⟨_, List.mem_cons_self, rfl⟩
          · cases h
            obtain ⟨a, ha, hs⟩ := hlater rfl
            exact ⟨a, List.mem_cons_of_mem _ ha, hs⟩
        · cases h
      · cases h

theorem Arm.includes_branch {a : Arm} {as : List Arm} (h : a ∈ as) :
    Job.Includes (.arms as) (.stmt a.branch) := by
  induction as with
  | nil => cases h
  | cons b rest ih =>
    intro P
    rcases List.mem_cons.1 h with rfl | h
    · obtain ⟨token, condition, branch⟩ := a
      refine ⟨P.child 0, .child (.refl P) 0, fun v (hv : v ∈ branch.visits _) => ?_⟩
      simp [Job.visits, Arm.visitsOfList, Arm.visits, hv]
    · obtain ⟨Q, hlevel, hsub⟩ := ih h ((P.after b.declares).child 1)
      refine ⟨Q, .trans (.child (.after (.refl P) _) 1) hlevel, List.Subset.trans hsub ?_⟩
      simp [Job.visits, Arm.visitsOfList]

theorem Stmt.inside (fuel : Nat) (m : Machine) (s : Stmt)
    (hs : ∀ token body, s ≠ .block token body) :
    Evaluation.Inside m (.stmt s) (Job.parts fuel m (.stmt s)) := by
  cases s with
  | hole | arm | operation | object | «enum» => exact nil
  | block token body => exact absurd rfl (hs token body)
  | expression _ value | print _ value =>
    exact single fuel (.refl m) fun P => ⟨P, .refl P, by simp [Job.visits, Stmt.visits]⟩
  | define d =>
    refine single fuel (.refl m) fun P => ⟨_, .initializer (.refl P) d.name.text, ?_⟩
    simp [Job.visits, Stmt.visits]
  | conditional token condition branch arms otherwise =>
    have hcondition : Job.Includes (.stmt (.conditional token condition branch arms otherwise))
        (.expr condition) := by
      refine fun P => ⟨P, .refl P, ?_⟩
      cases otherwise <;> simp [Job.visits, Stmt.visits]
    have hbranch : Job.Includes (.stmt (.conditional token condition branch arms otherwise))
        (.stmt branch) := by
      refine fun P => ⟨P.child 0, .child (.refl P) 0, fun v (hv : v ∈ branch.visits _) => ?_⟩
      cases otherwise <;> simp [Job.visits, Stmt.visits, hv]
    have harms : Job.Includes (.stmt (.conditional token condition branch arms otherwise))
        (.arms arms) := by
      refine fun P => ⟨_, .child (.after (.refl P) branch.declares) 1,
        fun v (hv : v ∈ Arm.visitsOfList _ arms) => ?_⟩
      cases otherwise <;> simp [Job.visits, Stmt.visits, hv]
    refine part fuel (.refl m) hcondition fun value m₁ _ h₁ => ?_
    split
    · exact single fuel h₁ hbranch
    · refine part fuel h₁ harms fun chosen m₂ hchosen h₂ => ?_
      match chosen, otherwise with
      | some s, _ =>
        obtain ⟨a, ha, rfl⟩ := Arm.mem_of_choose hchosen
        exact single fuel h₂ (harms.trans (Arm.includes_branch ha))
      | none, some last =>
        refine single fuel h₂ fun P => ⟨_, .child (.after (.refl P) (branch.declares ++
          Arm.declaresList arms)) 2, fun v (hv : v ∈ last.visits _) => ?_⟩
        simp [Job.visits, Stmt.visits, hv]
      | none, none => exact nil
  | loop _ condition body =>
    exact single fuel (.refl m) fun P => ⟨P, .refl P, by simp [Job.visits, Stmt.visits]⟩
  | «return» _ value =>
    exact single fuel (.refl m) fun P => ⟨P, .refl P, by simp [Job.visits, Stmt.visits]⟩
  | form _ name members =>
    refine single fuel ⟨.define .., rfl, rfl⟩ fun P => ⟨_, .after (.refl P) [name.text], ?_⟩
    simp [Job.visits, Stmt.visits]

theorem Job.inside (fuel : Nat) (m : Machine) (t : Job) (happ : ¬t.IsApplication)
    (hblock : ∀ token body, t ≠ .stmt (.block token body)) :
    Evaluation.Inside m t (t.parts fuel m) := by
  match t with
  | .expr e => exact e.inside fuel m
  | .exprs [] | .optional none | .stmts [] | .arms [] | .members [] _ | .program _ => exact nil
  | .exprs (e :: es) =>
    refine part fuel (.refl m) (fun P => ⟨P, .refl P, ?_⟩) fun _ m₁ _ h₁ =>
      single fuel h₁ fun P => ⟨P, .refl P, ?_⟩
    · simp [visits, Expr.visits, Expr.partsOfList]
    · simp [visits, Expr.partsOfList]
  | .optional (some e) => exact single fuel (.refl m) fun P => ⟨P, .refl P, List.Subset.refl _⟩
  | .invocation callee args => exact callee.inside fuel m args
  | .application .. => exact absurd trivial happ
  | .stmt s =>
    refine s.inside fuel m ?_
    rintro token body rfl
    exact hblock token body rfl
  | .stmts (s :: ss) =>
    refine part fuel (.refl m) (fun P => ⟨_, .child (.refl P) 0, ?_⟩) fun completion m₁ _ h₁ => ?_
    · simp [visits, Stmt.visitsOfList]
    · cases completion with
      | normal =>
        refine single fuel h₁ fun P => ⟨_, .child (.after (.refl P) s.declares) 1, ?_⟩
        simp [visits, Stmt.visitsOfList]
      | returned v => exact nil
  | .arms (⟨token, condition, branch⟩ :: rest) =>
    refine part fuel (.refl m) (fun P => ⟨_, .child (.refl P) 0, ?_⟩) fun _ m₁ _ h₁ =>
      single fuel h₁ fun P => ⟨_, .child (.after (.refl P) branch.declares) 1, ?_⟩
    · simp [visits, Arm.visitsOfList, Arm.visits]
    · simp [visits, Arm.visitsOfList, Arm.declares]
  | .rounds condition body =>
    refine part fuel (.refl m) (fun P => ⟨P, .refl P, ?_⟩) fun value m₁ _ h₁ => ?_
    · simp [visits]
    · split
      · refine part fuel h₁ (fun P => ⟨_, .child (.refl P) 0, ?_⟩) fun completion m₂ _ h₂ => ?_
        · simp [visits]
        · cases completion with
          | normal => exact single fuel h₂ fun P => ⟨P, .refl P, List.Subset.refl _⟩
          | returned v => exact nil
      · exact nil
  | .members (d :: rest) before =>
    refine part fuel (.refl m) (fun P => ⟨P, .refl P, ?_⟩) fun value m₁ _ h₁ => ?_
    · simp [visits, Definition.visitsOfMembers]
    · refine single fuel (h₁.trans ⟨.define .., rfl, rfl⟩) fun P =>
        ⟨_, .after (.refl P) [d.name.text],
          fun v (hv : v ∈ Definition.visitsOfMembers _ rest) => ?_⟩
      simp [visits, Definition.visitsOfMembers, hv]

def Job.Accepted (P : Place) (t : Job) : Prop := ∀ v ∈ t.visits P, v.fault? = none

theorem Job.Includes.accepted {t u : Job} (h : t.Includes u) {P : Place} (ht : t.Accepted P) :
    ∃ Q, P.Level Q ∧ u.Accepted Q := by
  obtain ⟨Q, hlevel, hsub⟩ := h P
  exact ⟨Q, hlevel, fun v hv => ht v (hsub hv)⟩

theorem Job.not_accepted_return {P : Place} (h : P.inOperation = false) (keyword : Token)
    (value : Option Expr) : ¬(Job.stmt (.return keyword value)).Accepted P := by
  intro haccepted
  have hfault := haccepted ⟨.node (.stmt (.return keyword value)), P⟩
    (by simp [visits, Stmt.visits])
  simp [Visit.fault?, h] at hfault

theorem Job.not_accepted_parent {P : Place} (h : P.isLocal = false) (name : Token) :
    ¬(Job.expr (.parent name)).Accepted P := by
  intro haccepted
  have hfault := haccepted ⟨.node (.expr (.parent name)), P⟩ (List.mem_singleton_self _)
  simp [Visit.fault?, h] at hfault

namespace Evaluation

variable {x y r : Evaluation} {P : Place}

theorem inside (x : Evaluation) (happ : ¬x.job.IsApplication)
    (hblock : ∀ token body, x.job ≠ .stmt (.block token body)) :
    Inside x.machine x.job x.parts := by
  obtain ⟨fuel, t, m⟩ := x
  match t with
  | .program [] => exact nil
  | .program (s :: rest) =>
    refine part fuel (.refl m) (fun P => ⟨_, .child (.refl P) 0, ?_⟩) fun _ m₁ _ h₁ => ?_
    · simp [Job.visits, Stmt.visitsOfList]
    · refine single fuel h₁ fun P => ⟨_, .child (.after (.refl P) s.declares) 1, ?_⟩
      simp [Job.visits, Stmt.visitsOfList]
  | .expr _ | .exprs _ | .optional _ | .invocation .. | .application .. | .stmt _ | .stmts _
  | .arms _ | .rounds .. | .members .. =>
    cases fuel with
    | zero => exact nil
    | succ fuel => exact Job.inside fuel m _ happ hblock

/-- What is evaluated outside of the operations called is not in one. -/
theorem accepted_of_part (hy : y ∈ x.parts) (happ : ¬x.job.IsApplication)
    (h : x.job.Accepted P) : ∃ Q, Q.inOperation = P.inOperation ∧ y.job.Accepted Q := by
  by_cases hblock : ∃ token body, x.job = .stmt (.block token body)
  · obtain ⟨token, body, hx⟩ := hblock
    obtain ⟨n, -, hpart⟩ := mem_parts hy (by simp [hx])
    rw [hx] at hpart h
    obtain rfl := List.mem_singleton.1 hpart
    refine ⟨P.enter (Stmt.declaresList body), rfl, fun v hv => h v ?_⟩
    exact List.mem_cons_of_mem _ hv
  · obtain ⟨-, hincludes⟩ := x.inside happ (fun token body hx => hblock ⟨token, body, hx⟩) y hy
    obtain ⟨Q, hlevel, hQ⟩ := hincludes.accepted h
    exact ⟨Q, hlevel.inOperation, hQ⟩

theorem Within.accepted (hr : x.Within r) (happ : ¬x.job.IsApplication) (h : x.job.Accepted P) :
    ∃ Q, Q.inOperation = P.inOperation ∧ r.job.Accepted Q := by
  induction hr generalizing P with
  | here => exact ⟨P, rfl, h⟩
  | part hy hjob _ ih =>
    obtain ⟨Q, hQ, hy⟩ := accepted_of_part hy happ h
    obtain ⟨R, hR, hr⟩ := ih hjob hy
    exact ⟨R, hR.trans hQ, hr⟩

theorem Within.ne_return (hr : x.Within r) (happ : ¬x.job.IsApplication) (h : x.job.Accepted P)
    (hP : P.inOperation = false) (keyword : Token) (value : Option Expr) :
    r.job ≠ .stmt (.return keyword value) := by
  intro hreturn
  obtain ⟨Q, hQ, haccepted⟩ := hr.accepted happ h
  rw [hreturn] at haccepted
  exact Job.not_accepted_return (hQ.trans hP) keyword value haccepted

/-- There is a scope around the current one, or what is evaluated does not ask for it. -/
def Covered (x : Evaluation) : Prop :=
  (x.machine.store.scopes.outer? x.machine.current).isSome ∨
    ∃ P, P.isLocal = false ∧ x.job.Accepted P

end Evaluation

theorem Machine.isSome_outer?_enter (m : Machine) {outer : ScopeId}
    (h : outer < m.store.scopes.size) (bindings : List (String × Value)) :
    ((m.enter outer bindings).store.scopes.outer? (m.enter outer bindings).current).isSome := by
  have hentered : (m.store.enterScope outer).1.scopes.outer? m.store.scopes.size = some outer :=
    Scopes.outer?_push_size _ h
  have hsize : m.store.scopes.size < (m.store.enterScope outer).1.scopes.size := by
    simp [Store.enterScope, Scopes.enter]
  have hdefined := (Store.Extends.defineAll (m.store.enterScope outer).1 m.store.scopes.size
    bindings).outer _ hsize
  have hcurrent : (m.enter outer bindings).current = m.store.scopes.size := rfl
  rw [hcurrent]
  exact (congrArg Option.isSome (hdefined.trans hentered)).trans rfl

namespace Evaluation

variable {x y : Evaluation}

theorem Covered.part (hx : x.Sound False) (h : x.Covered) (hy : y ∈ x.parts) : y.Covered := by
  by_cases happ : x.job.IsApplication
  · obtain ⟨fuel, t, m⟩ := x
    cases t with
    | application closure args =>
      -- the new scope is inside that of the operation, wherever it is called from
      obtain ⟨n, rfl, hpart⟩ := mem_parts hy nofun
      obtain rfl := List.mem_singleton.1 hpart
      exact .inl (m.isSome_outer?_enter hx.job.1.scope_lt _)
    | _ => exact happ.elim
  by_cases hblock : ∃ token body, x.job = .stmt (.block token body)
  · obtain ⟨token, body, hjob⟩ := hblock
    obtain ⟨n, -, hpart⟩ := mem_parts hy (by simp [hjob])
    rw [hjob] at hpart
    obtain rfl := List.mem_singleton.1 hpart
    exact .inl (x.machine.isSome_outer?_enter hx.machine.current_lt _)
  · obtain ⟨hcontinues, hincludes⟩ :=
      x.inside happ (fun token body hjob => hblock ⟨token, body, hjob⟩) y hy
    rcases h with h | ⟨P, hP, haccepted⟩
    · -- no scope is opened, and those that are there keep their outer scopes
      refine .inl ?_
      rw [hcontinues.current, hcontinues.store.outer _ hx.machine.current_lt]
      exact h
    · obtain ⟨Q, hlevel, hQ⟩ := hincludes.accepted haccepted
      exact .inr ⟨Q, hlevel.isLocal.trans hP, hQ⟩

theorem Covered.leads {calls : List Token} (h : x.Covered) (hx : x.Sound False)
    (hlead : x.Leads calls y) : y.Covered := by
  induction hlead with
  | here => exact h
  | part hy _ ih => exact ih (h.part hx hy) (hx.part hy)

/-- Where there is an enclosing scope, a reference to it fails only if the name is bound nowhere. -/
theorem Covered.parent (h : x.Covered) {name : Token} (hx : x.job = .expr (.parent name))
    {f : Failure} (hf : x.outcome.1 = .error (.failure f)) :
    f.cause = .undefinedVariable name.text := by
  obtain ⟨fuel, t, m⟩ := x
  obtain rfl : t = .expr (.parent name) := hx
  have houter : (m.store.scopes.outer? m.current).isSome := by
    rcases h with h | ⟨P, hP, haccepted⟩
    · exact h
    · exact absurd haccepted (Job.not_accepted_parent hP name)
  obtain ⟨outer, houter⟩ := Option.isSome_iff_exists.1 houter
  cases fuel with
  | zero => cases hf
  | succ fuel =>
    change (((Expr.parent name).eval (fuel + 1)).run m).1 = _ at hf
    rw [Expr.eval, run_bind_eq, Run.run_get] at hf
    simp only [houter] at hf
    split at hf
    · cases hf
    · cases hf
      rfl

end Evaluation

theorem Stmt.includes_of_mem {s : Stmt} {ss : List Stmt} (h : s ∈ ss) :
    Job.Includes (.stmts ss) (.stmt s) := by
  induction ss with
  | nil => cases h
  | cons first rest ih =>
    intro P
    rcases List.mem_cons.1 h with rfl | h
    · exact ⟨P.child 0, .child (.refl P) 0, by simp [Job.visits, Stmt.visitsOfList]⟩
    · obtain ⟨Q, hlevel, hsub⟩ := ih h ((P.after first.declares).child 1)
      refine ⟨Q, .trans (.child (.after (.refl P) _) 1) hlevel, List.Subset.trans hsub ?_⟩
      simp [Job.visits, Stmt.visitsOfList]

theorem Program.accepted_of_diagnostics {p q : Program} (hp : p.resolve.diagnostics = [])
    (hq : q.unnumbered = p.unnumbered) : (Job.program q).Accepted (.top 0) := by
  have hresolve := Program.resolve_congr (Program.annotated_eq_of_unnumbered hq)
  rw [← hresolve] at hp
  exact q.fault?_eq_none hp 0

theorem Program.not_returned {q : Program} {P : Place} (hq : (Job.stmts q).Accepted P)
    (hP : P.inOperation = false) {s : Stmt} (hs : s ∈ q) (fuel : Nat) (m m' : Machine) (v : Value) :
    (s.exec fuel).run m ≠ (.ok (.returned v), m') := by
  intro hrun
  have hreturns : Evaluation.Returns ⟨fuel, .stmt s, m⟩ v m' := ⟨.returned v, hrun, rfl⟩
  obtain ⟨r, keyword, value, -, hr, hjob, -⟩ := hreturns.exists_return
  obtain ⟨Q, hlevel, haccepted⟩ := (Stmt.includes_of_mem hs).accepted hq
  exact hr.ne_return id haccepted (hlevel.inOperation.trans hP) keyword value hjob

/-- A return unwinds exactly one invocation, and accepted programs neither return from their top
level nor look above it, whatever has been run before. -/
theorem Machine.Reached.returns_unwind_one_call {m : Machine} (hm : m.Reached fun _ => True)
    {p q : Program} (hp : p.resolve.diagnostics = []) (hq : q.unnumbered = p.unnumbered)
    (fuel : Nat) :
    (∀ s ∈ q, ∀ fuel' m₀ m₁ v, (s.exec fuel').run m₀ ≠ (.ok (.returned v), m₁)) ∧
    (∀ calls x name f, Evaluation.Leads ⟨fuel, .program q, m⟩ calls x →
      x.job = .expr (.parent name) → x.outcome.1 = .error (.failure f) →
        ¬Opens "No enclosing scope to read '" f.cause.message) ∧
    (∀ calls r keyword value v s, Evaluation.Leads ⟨fuel, .program q, m⟩ calls r →
      r.job = .stmt (.return keyword value) → r.Returns v s →
        (∃ calls' n closure args m', Evaluation.Leads ⟨fuel, .program q, m⟩ calls'
            ⟨n, .application closure args, m'⟩ ∧
          Evaluation.Within ⟨n, .application closure args, m'⟩ r) ∧
        ∀ n closure args m', Evaluation.Within ⟨n, .application closure args, m'⟩ r →
          r.Unwound v s closure ⟨n, .application closure args, m'⟩) ∧
    ∀ n closure args m' body v s, body ∈ Evaluation.parts ⟨n, .application closure args, m'⟩ →
      body.Returns v s → ∃ r keyword value s',
        Evaluation.Within ⟨n, .application closure args, m'⟩ r ∧
        r.job = .stmt (.return keyword value) ∧ r.Returns v s' := by
  have haccepted := Program.accepted_of_diagnostics hp hq
  refine ⟨fun s hs fuel' m₀ m₁ v => ?_, fun calls x name f hx hparent hf hopens => ?_,
    fun calls r keyword value v s hr hreturn hv => ⟨?_, ?_⟩, ?_⟩
  · exact Program.not_returned (P := .top 0) haccepted rfl hs fuel' m₀ m₁ v
  · have hsound : Evaluation.Sound False ⟨fuel, .program q, m⟩ := ⟨hm.sound nofun, nofun⟩
    have hcovered : Evaluation.Covered ⟨fuel, .program q, m⟩ := .inr ⟨.top 0, rfl, haccepted⟩
    have hcause := (hcovered.leads hsound hx).parent hparent hf
    have hmessage : Opens "Undefined variable '" f.cause.message := by
      rw [hcause]
      exact ((Opens.refl _).append _).append _
    rcases List.prefix_or_prefix_of_prefix hmessage.isPrefix hopens.isPrefix with hle | hle
    · revert hle
      decide
    · revert hle
      decide
  · -- outside of all operations the return would be at fault
    rcases hr.within with hr | ⟨calls', ⟨n, t, m'⟩, ha, happ, hwithin⟩
    · exact absurd hreturn (hr.ne_return (P := .top 0) id haccepted rfl keyword value)
    · cases t with
      | application closure args => exact ⟨calls', n, closure, args, m', ha, hwithin⟩
      | _ => exact happ.elim
  · exact fun n closure args m' hwithin => hv.unwound hwithin
  · intro n closure args m' body v s hbody hv
    obtain ⟨r, keyword, value, s', hr, hreturn, hs'⟩ := hv.exists_return
    exact ⟨r, keyword, value, s', .part hbody hv.isStatement.not_application hr, hreturn, hs'⟩

/-- Returns from a block, with a statement left to run in it. -/
def returningBlock : List Stmt :=
  [.return .blank (some (.literal .blank (.text "a"))),
    .print .blank (.literal .blank (.text "b"))]

/-- Runs the block in a loop without end, with a statement left to run after it. -/
def returningOperation : Operation :=
  ⟨.blank, ⟨.identifier, "f", 1, .null⟩, [],
    [.loop .blank (.literal .blank (.bool true)) (.block .blank returningBlock),
      .print .blank (.literal .blank (.text "c"))]⟩

def returningCall : Expr := .call (.variable ⟨.identifier, "f", 2, .null⟩ none) .blank []

def returning : Program := [.operation returningOperation, .print .blank returningCall]

theorem returning_unwound :
    let m := Machine.start ⟨fun _ => 0, 0⟩ ([Module.text].flatMap Module.entries)
    ∃ (r : Evaluation) (s : Machine), r.Returns (.text "a") s ∧
      ∃ calls n closure args m', Evaluation.Leads ⟨20, .program returning, m⟩ calls
          ⟨n, .application closure args, m'⟩ ∧
        r.Unwound (.text "a") s closure ⟨n, .application closure args, m'⟩ := by
  intro m
  have hm : m.Reached fun _ => True := .start ⟨fun _ => 0, 0⟩ [.text]
  obtain ⟨-, -, hreturns, -⟩ := hm.returns_unwind_one_call (p := returning) rfl rfl 20
  let declared : Machine := (((Stmt.operation returningOperation).exec 20).run m).2
  let entered := declared.enter 0 []
  let inner := entered.enter entered.current []
  let r : Evaluation := ⟨11, .stmt (.return .blank (some (.literal .blank (.text "a")))), inner⟩
  let condition : Expr := .literal .blank (.bool true)
  have hblock : Evaluation.Leads ⟨13, .stmt (.block .blank returningBlock), entered⟩ [] r :=
    .part (y := ⟨12, .stmts returningBlock, inner⟩) (.head _) (.part (.head _) (.here r))
  have hbody : Evaluation.Leads ⟨16, .stmts returningOperation.body, entered⟩ [] r :=
    .part (y := ⟨15, .stmt (.loop .blank condition (.block .blank returningBlock)), entered⟩)
      (.head _) <| .part (y := ⟨14, .rounds condition (.block .blank returningBlock), entered⟩)
        (.head _) (.part (.tail _ (.head _)) hblock)
  have hcall : Evaluation.Leads ⟨19, .expr returningCall, declared⟩ [.blank] r :=
    .part (y := ⟨18, .invocation (.operation 0) [], declared⟩) (.tail _ (.tail _ (.head _))) <|
      .part (y := ⟨17, .application ⟨returningOperation, 0, false⟩ [], declared⟩) (.head _) <|
        .part (.head _) hbody
  have hlead : Evaluation.Leads ⟨20, .program returning, m⟩ [.blank] r :=
    .part (y := ⟨20, .program returning.tail, declared⟩) (.tail _ (.head _)) <|
      .part (y := ⟨20, .stmt (.print .blank returningCall), declared⟩) (.head _) <|
        .part (y := ⟨19, .expr returningCall, declared⟩) (.head _) hcall
  have hreturned : r.Returns (.text "a") inner := ⟨.returned (.text "a"), rfl, rfl⟩
  obtain ⟨⟨calls, n, closure, args, m', happlication, hwithin⟩, hunwound⟩ :=
    hreturns _ r _ _ _ _ hlead rfl hreturned
  exact ⟨r, inner, hreturned, calls, n, closure, args, m', happlication, hunwound _ _ _ _ hwithin⟩

end Treescript
