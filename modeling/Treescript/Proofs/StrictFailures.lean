import Treescript.Proofs.Evaluations

/-!
# Failures are strict and final

The first part of an evaluation that does not end with a result is its last part: the evaluation
stops as the part did, on the machine that the part left, back in its own scope. A call adds to this
only its own place, for failures that have none. So a failing run has one evaluation that raises the
failure, at a place of its own, and ends with it.
-/

namespace Treescript

def Stop.locatedAt (token : Token) : Stop → Stop
  | .failure f => .failure (f.locatedAt token)
  | stop => stop

/-- Located by the first of several tokens that has to do it. -/
def Stop.locatedAll (stop : Stop) (tokens : List Token) : Stop :=
  tokens.foldl (fun stop token => stop.locatedAt token) stop

def Failure.locatedAll (f : Failure) (tokens : List Token) : Failure :=
  tokens.foldl (fun f token => f.locatedAt token) f

theorem Stop.locatedAll_append (stop : Stop) (tokens others : List Token) :
    stop.locatedAll (tokens ++ others) = (stop.locatedAll tokens).locatedAll others :=
  List.foldl_append

theorem Stop.locatedAll_failure (f : Failure) (tokens : List Token) :
    (Stop.failure f).locatedAll tokens = .failure (f.locatedAll tokens) := by
  induction tokens generalizing f with
  | nil => rfl
  | cons token rest ih => exact ih (f.locatedAt token)

/-- Only failures are located. -/
theorem Stop.eq_failure_of_locatedAll {stop : Stop} {tokens : List Token} {f : Failure}
    (h : stop.locatedAll tokens = .failure f) : ∃ g, stop = .failure g := by
  induction tokens generalizing stop with
  | nil => exact ⟨f, h⟩
  | cons token rest ih =>
    obtain ⟨g, hg⟩ := ih h
    cases stop with
    | failure g => exact ⟨g, rfl⟩
    | outOfFuel | fault => cases hg

theorem Run.locating_run {α : Type} (token : Token) (run : Run α) (m : Machine) :
    (Run.locating token run).run m =
      match run.run m with
      | (.ok a, m') => (.ok a, m')
      | (.error stop, m') => (.error (stop.locatedAt token), m') := by
  rw [Run.locating, run_tryCatch_eq]
  rcases run.run m with ⟨(_ | _ | _) | _, m'⟩ <;> rfl

/-- The tokens at which a job raises failures of its own. -/
def Job.places : Job → List Token
  | .expr (.count operator _ name _) => [operator, name]
  | .expr e => [e.token]
  | .stmt s => [s.token]
  | .invocation .. => [.blank]
  | _ => []

/-- The tokens that locate what a part fails with: of a call, its parenthesis for what it invokes. -/
def Job.calls : (whole part : Job) → List Token
  | .expr (.call _ paren _), .invocation .. => [paren]
  | _, _ => []

/-- Whatever the run fails with is at one of the tokens, and it is not a call that is refused. -/
def Run.FailsAt {α : Type} (tokens : List Token) (run : Run α) : Prop :=
  ∀ m f s, run.run m = (.error (.failure f), s) → f.token ∈ tokens ∧ f.args = none

namespace Run.FailsAt

variable {α β : Type} {tokens : List Token} {run : Run α}

theorem pure (a : α) : Run.FailsAt tokens (Pure.pure a) := by
  rintro m f s ⟨⟩

theorem fault : Run.FailsAt (α := α) tokens (throw .fault) := by
  rintro m f s ⟨⟩

theorem fail {token : Token} (h : token ∈ tokens) (cause : Cause) :
    Run.FailsAt (α := α) tokens (Run.fail token cause) := by
  rintro m f s ⟨⟩
  exact ⟨h, rfl⟩

theorem get : Run.FailsAt tokens get := by
  rintro m f s ⟨⟩

theorem store : Run.FailsAt tokens Run.store := by
  rintro m f s ⟨⟩

theorem onStore (change : Store → Store × α) : Run.FailsAt tokens (Run.onStore change) := by
  rintro m f s ⟨⟩

theorem modify (change : Machine → Machine) :
    Run.FailsAt tokens (modify change : Run Unit) := by
  rintro m f s ⟨⟩

theorem now : Run.FailsAt tokens Run.now := by
  rintro m f s ⟨⟩

theorem found (a? : Option α) : Run.FailsAt tokens (Run.found a?) := by
  cases a? with
  | none => exact fault
  | some a => exact pure a

theorem bind {k : α → Run β} (h : Run.FailsAt tokens run) (hk : ∀ a, Run.FailsAt tokens (k a)) :
    Run.FailsAt tokens (run >>= k) := by
  intro m f s hrun
  rw [run_bind_eq] at hrun
  split at hrun
  · next a m' _ => exact hk a m' f s hrun
  · next hstop =>
    cases hrun
    exact h _ _ _ hstop

theorem lookup {token : Token} (h : token ∈ tokens) (name : String) (hops : Option Nat) :
    Run.FailsAt tokens (Run.lookup token name hops) := by
  refine get.bind fun m => ?_
  dsimp only
  split
  · exact pure _
  · exact fail h _

theorem assign {name : Token} (h : name ∈ tokens) (hops : Option Nat) (value : Value) :
    Run.FailsAt tokens (Run.assign name hops value) := by
  refine get.bind fun m => ?_
  dsimp only
  split
  · exact (modify _).bind fun _ => pure _
  · exact fail h _

theorem operator {token : Token} (h : token ∈ tokens) (result : Except Cause Value) :
    Run.FailsAt tokens (Run.operator token result) := by
  cases result with
  | ok v => exact pure v
  | error cause => exact fail h cause

theorem getProperty {name : Token} (h : name ∈ tokens) (of : TypeRef) (id : Nat) :
    Run.FailsAt tokens (Run.getProperty of id name) := by
  refine store.bind fun s => (found _).bind fun fields => ?_
  split
  · exact pure _
  · cases of with
    | object t =>
      refine (found _).bind fun type => ?_
      split
      · exact fail h _
      · exact (found _).bind fun _ => (onStore _).bind fun _ => pure _
    | «enum» t =>
      refine (found _).bind fun type => ?_
      split
      · exact pure _
      · split
        · exact pure _
        · exact fail h _
    | form t =>
      refine (found _).bind fun type => ?_
      split
      · exact pure _
      · exact fail h _

theorem native (h : .blank ∈ tokens) (fuel : Nat) (n : Native) (args : List Value) :
    Run.FailsAt tokens ((Value.native n).call (fuel + 1) args) := by
  have hrest : ∀ time : Float, Run.FailsAt tokens (do
      Run.operator .blank (← Run.found (n.apply (← Run.store) time (args.map .value)))) :=
    fun time => store.bind fun s => (found _).bind fun result => operator h result
  rw [Value.call]
  split
  · exact now.bind hrest
  · exact (pure _).bind hrest

theorem declareObject (name : Token) (methods : List Operation) :
    Run.FailsAt tokens (Run.declareObject name methods) :=
  (modify _).bind fun _ => get.bind fun _ => (onStore _).bind fun _ =>
    (onStore _).bind fun _ => (modify _).bind fun _ => modify _

theorem declareEnum (name : Token) (elements : List Token) :
    Run.FailsAt tokens (Run.declareEnum name elements) :=
  (modify _).bind fun _ => (onStore _).bind fun _ => (modify _).bind fun _ => modify _

theorem declareForm (name : Token) (members : NameMap Value) :
    Run.FailsAt tokens (Run.declareForm name members) :=
  (onStore _).bind fun _ => (modify _).bind fun _ => modify _

end Run.FailsAt

/-- What a job may fail with on its own. Only a call keeps arguments. -/
def Job.MayRaise (t : Job) (f : Failure) : Prop :=
  f.token ∈ t.places ∧ (f.args = none ∨ ∃ callee paren args, t = .expr (.call callee paren args))

/-- The evaluations are the parts of a run for a job: it ends as soon as one of them does, and what
it fails with otherwise is at a place of the job. -/
structure Run.Follows {α : Type} (whole : Job) (run : Run α) (m : Machine)
    (ys : List Evaluation) : Prop where
  stops : ∀ before y after stop s, ys = before ++ y :: after → y.outcome = (.error stop, s) →
    after = [] ∧
      run.run m = (.error (stop.locatedAll (whole.calls y.job)), { s with current := m.current })
  raises : (∀ y ∈ ys, ∀ stop, y.outcome.1 ≠ .error stop) →
    ∀ f s, run.run m = (.error (.failure f), s) → whole.MayRaise f

namespace Run.Follows

variable {α β : Type} {whole : Job} {run : Run α} {m : Machine} {ys : List Evaluation}

theorem nil (h : Run.FailsAt whole.places run) : Run.Follows whole run m [] := by
  refine ⟨?_, fun _ f s hrun => (h m f s hrun).imp_right .inl⟩
  intro before y after stop s hys
  simp at hys

theorem refused (callee : Expr) (paren : Token) (args : List Expr) (cause : Cause)
    (values : List Value) :
    Run.Follows (.expr (.call callee paren args))
      (Run.refuse paren cause values : Run α) m [] := by
  constructor
  · intro before y after stop s hys
    simp at hys
  · rintro - f s ⟨⟩
    exact ⟨List.mem_cons_self, .inr ⟨callee, paren, args, rfl⟩⟩

theorem of_run_eq {run' : Run α} {m' : Machine} (h : run.run m = run'.run m')
    (hcurrent : m'.current = m.current) (hf : Run.Follows whole run' m' ys) :
    Run.Follows whole run m ys := by
  constructor
  · intro before y after stop s hys hy
    rw [h, ← hcurrent]
    exact hf.stops before y after stop s hys hy
  · rw [h]
    exact hf.raises

/-- A step of the machine before the first part. -/
theorem step {prim : Run α} {k : α → Run β} {a : α} {m' : Machine}
    (h : prim.run m = (.ok a, m')) (hcurrent : m'.current = m.current)
    (hk : Run.Follows whole (k a) m' ys) : Run.Follows whole (prim >>= k) m ys :=
  of_run_eq (by rw [run_bind_eq, h]) hcurrent hk

/-- The one part of a run ends as the run does, up to the token that locates its failure. -/
theorem of_outcome {fuel : Nat} {t : Job} {run : Run t.Result}
    (hstop : ∀ stop s, (t.run fuel).run m = (.error stop, s) →
      run.run m = (.error (stop.locatedAll (whole.calls t)), s))
    (hok : ∀ a s, (t.run fuel).run m = (.ok a, s) → run.run m = (.ok a, s)) :
    Run.Follows whole run m [⟨fuel, t, m⟩] := by
  constructor
  · intro before y after stop s hys hy
    obtain ⟨rfl, rfl, rfl⟩ : before = [] ∧ y = ⟨fuel, t, m⟩ ∧ after = [] := by
      cases before <;> simp_all
    have hcurrent : s.current = m.current := Evaluation.current_eq hy
    rw [hstop stop s hy, ← hcurrent]
    exact ⟨rfl, rfl⟩
  · intro hnone f s hrun
    have hx : ∀ stop, ((t.run fuel).run m).1 ≠ .error stop := hnone _ (List.mem_singleton_self _)
    rcases hy : (t.run fuel).run m with ⟨stop | a, s'⟩
    · exact absurd (congrArg Prod.fst hy) (hx stop)
    · cases (hok a s' hy).symm.trans hrun

theorem tail (fuel : Nat) (t : Job) (ht : whole.calls t = []) :
    Run.Follows whole (t.run fuel) m [⟨fuel, t, m⟩] :=
  of_outcome (fun stop s h => by rw [h, ht]; rfl) fun _ _ h => h

theorem located (fuel : Nat) (t : Job) {token : Token} (ht : whole.calls t = [token]) :
    Run.Follows whole (Run.locating token (t.run fuel)) m [⟨fuel, t, m⟩] :=
  of_outcome (fun stop s h => by rw [Run.locating_run, h, ht]; rfl)
    fun a s h => by rw [Run.locating_run, h]

/-- What comes after the last part is no further part. -/
theorem followed (h : Run.Follows whole run m ys) {k : α → Run β}
    (hk : ∀ a, Run.FailsAt whole.places (k a)) : Run.Follows whole (run >>= k) m ys := by
  constructor
  · intro before y after stop s hys hy
    obtain ⟨hafter, hrun⟩ := h.stops before y after stop s hys hy
    exact ⟨hafter, by rw [run_bind_eq, hrun]⟩
  · intro hnone f s hrun
    rw [run_bind_eq] at hrun
    split at hrun
    · next a m' _ => exact (hk a m' f s hrun).imp_right .inl
    · next hstop =>
      cases hrun
      exact h.raises hnone f s hstop

theorem single (fuel : Nat) (t : Job) {k : t.Result → Run β} (ht : whole.calls t = [])
    (hk : ∀ a, Run.FailsAt whole.places (k a)) :
    Run.Follows whole (t.run fuel >>= k) m [⟨fuel, t, m⟩] :=
  (tail fuel t ht).followed hk

/-- A part, and what follows it if it ends with a result. -/
theorem part (fuel : Nat) (t : Job) {k : t.Result → Run β}
    {next : t.Result → Machine → List Evaluation} (ht : whole.calls t = [])
    (hk : ∀ a m', m'.current = m.current → Run.Follows whole (k a) m' (next a m')) :
    Run.Follows whole (t.run fuel >>= k) m (Evaluation.andThen ⟨fuel, t, m⟩ next) := by
  rw [Evaluation.andThen]
  rcases hx : Evaluation.outcome ⟨fuel, t, m⟩ with ⟨stopped | a, m'⟩
  · have hrun : (t.run fuel >>= k).run m = (.error stopped, m') := by
      rw [run_bind_eq, show (t.run fuel).run m = (.error stopped, m') from hx]
    -- the part is the last one, so that the run stops as it would without the rest
    have hlast : Run.Follows whole (t.run fuel) m [⟨fuel, t, m⟩] := tail fuel t ht
    constructor
    · intro before y after stop s hys hy
      obtain ⟨hafter, hstop⟩ := hlast.stops before y after stop s hys hy
      obtain ⟨⟨⟩, rfl⟩ := Prod.mk.inj (hx.symm.trans hstop)
      exact ⟨hafter, hrun⟩
    · intro hnone
      exact absurd (congrArg Prod.fst hx) (hnone _ List.mem_cons_self stopped)
  · -- the part has ended with a result, so what stops the run is among those after it
    have hcurrent : m'.current = m.current := Evaluation.current_eq hx
    have hrun : (t.run fuel >>= k).run m = (k a).run m' := by
      rw [run_bind_eq, show (t.run fuel).run m = (.ok a, m') from hx]
    have hnext := hk a m' hcurrent
    constructor
    · intro before y after stop s hys hy
      cases before with
      | nil =>
        obtain ⟨rfl, -⟩ := List.cons.inj hys
        cases hx.symm.trans hy
      | cons first before =>
        rw [hrun, ← hcurrent]
        exact hnext.stops before y after stop s (List.cons.inj hys).2 hy
    · intro hnone
      rw [hrun]
      exact hnext.raises fun y hy => hnone y (List.mem_cons_of_mem _ hy)

theorem within (scope : ScopeId) (h : Run.Follows whole run { m with current := scope } ys) :
    Run.Follows whole (Run.within scope run) m ys := by
  constructor
  · intro before y after stop s hys hy
    obtain ⟨hafter, hrun⟩ := h.stops before y after stop s hys hy
    refine ⟨hafter, ?_⟩
    simp only [Run.within, ExceptT.run_mk, hrun]
  · intro hnone f s hrun
    obtain ⟨hresult, -⟩ := Prod.mk.inj hrun
    exact h.raises hnone f _ (Prod.ext hresult rfl)

end Run.Follows

open Run.Follows

theorem Expr.follows (fuel : Nat) (m : Machine) (e : Expr) :
    Run.Follows (.expr e) (e.eval (fuel + 1)) m (Job.parts fuel m (.expr e)) := by
  cases e with
  | hole => exact nil .fault
  | literal => exact nil (.pure _)
  | «variable» => exact nil (.lookup List.mem_cons_self _ _)
  | self => exact nil (.lookup List.mem_cons_self _ _)
  | assign _ value _ => exact single fuel (.expr value) rfl fun _ => .assign List.mem_cons_self _ _
  | unary _ right => exact single fuel (.expr right) rfl fun _ => .operator List.mem_cons_self _
  | binary left _ right =>
    refine part fuel (.expr left) rfl fun _ _ _ => single fuel (.expr right) rfl fun _ => ?_
    exact Run.FailsAt.store.bind fun _ => .operator List.mem_cons_self _
  | logical left operator right =>
    refine part fuel (.expr left) rfl fun value m' _ => ?_
    by_cases h : Value.isTruthy value = (operator.kind == .operator .or)
    · rw [if_pos h, if_pos h]
      exact nil (.pure _)
    · rw [if_neg h, if_neg h]
      exact tail fuel (.expr right) rfl
  | count operator target name _ =>
    refine single fuel (.expr target) rfl fun _ => ?_
    exact (Run.FailsAt.operator List.mem_cons_self _).bind fun _ =>
      .assign (List.mem_cons_of_mem _ List.mem_cons_self) _ _
  | call callee paren args =>
    refine part fuel (.expr callee) rfl fun callee m₁ _ => ?_
    refine part fuel (.exprs args) rfl fun args m₂ _ => ?_
    refine step (Run.run_store m₂) rfl ?_
    cases m₂.store.arity? callee with
    | none => exact refused ..
    | some arity =>
      dsimp only
      by_cases hlength : List.length args = arity
      · rw [if_neg (not_not_intro hlength), if_pos (congrArg some hlength.symm)]
        exact located fuel (.invocation callee args) rfl
      · rw [if_pos hlength, if_neg (fun heq => hlength (Option.some.inj heq).symm)]
        exact refused ..
  | group _ inner => exact tail fuel (.expr inner) rfl
  | get object name =>
    refine single fuel (.expr object) rfl fun target => ?_
    cases target with
    | holder of id => exact .getProperty List.mem_cons_self of id
    | _ => exact .fail List.mem_cons_self _
  | set object name value =>
    refine part fuel (.expr value) rfl fun _ _ _ => single fuel (.expr object) rfl fun target => ?_
    cases target with
    | holder of id => exact (Run.FailsAt.modify _).bind fun _ => .pure _
    | _ => exact .fail List.mem_cons_self _
  | parent name =>
    refine nil (Run.FailsAt.get.bind fun m => ?_)
    split
    · exact .fail List.mem_cons_self _
    · split
      · exact .pure _
      · exact .fail List.mem_cons_self _
  | global name =>
    refine nil (Run.FailsAt.get.bind fun m => ?_)
    split
    · exact .pure _
    · exact .fail List.mem_cons_self _

theorem Value.follows (fuel : Nat) (m : Machine) (callee : Value) (args : List Value) :
    Run.Follows (.invocation callee args) (callee.call (fuel + 1) args) m
      (Job.parts fuel m (.invocation callee args)) := by
  cases callee with
  | operation id =>
    refine step (Run.run_store m) rfl ?_
    simp only [Job.parts]
    cases m.store.closures[id]? with
    | none => exact nil .fault
    | some closure => exact tail fuel (.application closure args) rfl
  | native n => exact nil (.native List.mem_cons_self fuel n args)
  | type t =>
    simp only [Job.parts]
    have hrun := Value.call_type_run fuel t args m
    cases hpilot : m.store.pilot? t with
    | none =>
      simp only [hpilot] at hrun
      exact of_run_eq hrun rfl (nil (.pure _))
    | some pilot =>
      rw [Option.bind_some]
      cases hmethod : m.store.closures[pilot]? with
      | none =>
        simp only [hpilot, hmethod] at hrun
        exact of_run_eq hrun rfl (nil .fault)
      | some method =>
        simp only [hpilot, hmethod] at hrun
        refine of_run_eq hrun rfl ?_
        exact single fuel (.application (method.bound m) args) rfl fun _ => .pure _
  | none | bool | int | float | text | holder => exact nil .fault

theorem Stmt.follows (fuel : Nat) (m : Machine) (s : Stmt) :
    Run.Follows (.stmt s) (s.exec (fuel + 1)) m (Job.parts fuel m (.stmt s)) := by
  cases s with
  | hole => exact nil .fault
  | operation =>
    exact nil (Run.FailsAt.get.bind fun _ => (Run.FailsAt.onStore _).bind fun _ =>
      (Run.FailsAt.modify _).bind fun _ => .pure _)
  | arm a => exact nil (.fail List.mem_cons_self _)
  | object _ name methods => exact nil ((Run.FailsAt.declareObject _ _).bind fun _ => .pure _)
  | «enum» _ name elements => exact nil ((Run.FailsAt.declareEnum _ _).bind fun _ => .pure _)
  | expression _ value => exact single fuel (.expr value) rfl fun _ => .pure _
  | print _ value =>
    exact single fuel (.expr value) rfl fun _ => Run.FailsAt.store.bind fun _ =>
      (Run.FailsAt.modify _).bind fun _ => .pure _
  | define d =>
    exact single fuel (.optional d.initial) rfl fun _ =>
      (Run.FailsAt.modify _).bind fun _ => .pure _
  | block _ body =>
    refine step (Run.run_get m) rfl (step rfl rfl ?_)
    exact (tail fuel (.stmts body) rfl).within _
  | conditional _ condition branch arms otherwise =>
    refine part fuel (.expr condition) rfl fun value m₁ _ => ?_
    by_cases h : Value.isTruthy value = true
    · rw [if_pos h, if_pos h]
      exact tail fuel (.stmt branch) rfl
    · rw [if_neg h, if_neg h]
      refine part fuel (.arms arms) rfl fun chosen m₂ _ => ?_
      match chosen, otherwise with
      | some chosen, _ => exact tail fuel (.stmt chosen) rfl
      | none, some last => exact tail fuel (.stmt last) rfl
      | none, none => exact nil (.pure _)
  | loop _ condition body => exact tail fuel (.rounds condition body) rfl
  | «return» _ value => exact single fuel (.optional value) rfl fun _ => .pure _
  | form _ name members =>
    refine step rfl rfl (single fuel (.members members .empty) rfl fun _ => ?_)
    exact (Run.FailsAt.declareForm _ _).bind fun _ => .pure _

theorem Job.follows (fuel : Nat) (m : Machine) (t : Job) (ht : ∀ p, t ≠ .program p) :
    Run.Follows t (t.run (fuel + 1)) m (t.parts fuel m) := by
  match t with
  | .expr e => exact e.follows fuel m
  | .exprs [] => exact nil (.pure _)
  | .exprs (e :: es) =>
    exact part fuel (.expr e) rfl fun _ _ _ => single fuel (.exprs es) rfl fun _ => .pure _
  | .optional none => exact nil (.pure _)
  | .optional (some e) => exact tail fuel (.expr e) rfl
  | .invocation callee args => exact callee.follows fuel m args
  | .application closure args =>
    refine step rfl rfl ?_
    refine ((tail fuel (.stmts closure.declaration.body) rfl).within _).followed
      fun completion => ?_
    refine Run.FailsAt.store.bind fun store => ?_
    cases closure.isPilot <;> cases store.scopes.get? closure.scope selfName <;>
      cases completion <;> exact .pure _
  | .stmt s => exact s.follows fuel m
  | .stmts [] => exact nil (.pure _)
  | .stmts (s :: ss) =>
    refine part fuel (.stmt s) rfl fun completion m' _ => ?_
    cases completion with
    | normal => exact tail fuel (.stmts ss) rfl
    | returned value => exact nil (.pure _)
  | .arms [] => exact nil (.pure _)
  | .arms (⟨_, condition, branch⟩ :: rest) =>
    refine part fuel (.expr condition) rfl fun value _ _ => single fuel (.arms rest) rfl fun _ => ?_
    cases Value.isTruthy value with
    | false => exact .pure _
    | true => cases branch <;> exact .pure _
  | .rounds condition body =>
    refine part fuel (.expr condition) rfl fun value m₁ _ => ?_
    by_cases h : Value.isTruthy value = true
    · rw [if_pos h, if_pos h]
      refine part fuel (.stmt body) rfl fun completion m₂ _ => ?_
      cases completion with
      | normal => exact tail fuel (.rounds condition body) rfl
      | returned value => exact nil (.pure _)
    · rw [if_neg h, if_neg h]
      exact nil (.pure _)
  | .members [] before => exact nil (.pure _)
  | .members (⟨_, name, initial⟩ :: rest) before =>
    refine part fuel (.optional initial) rfl fun value m' _ => step rfl rfl ?_
    exact tail fuel (.members rest (before.insert name.text value)) rfl
  | .program p => exact absurd rfl (ht p)

namespace Evaluation

theorem follows (x : Evaluation) :
    Run.Follows x.job (x.job.run x.fuel) x.machine x.parts := by
  match x with
  | ⟨_, .program [], _⟩ => exact nil (.pure _)
  | ⟨fuel, .program (s :: rest), m⟩ =>
    exact part fuel (.stmt s) rfl fun _ _ _ => tail fuel (.program rest) rfl
  | ⟨fuel, .expr _, m⟩ | ⟨fuel, .exprs _, m⟩ | ⟨fuel, .optional _, m⟩
  | ⟨fuel, .invocation .., m⟩ | ⟨fuel, .application .., m⟩ | ⟨fuel, .stmt _, m⟩
  | ⟨fuel, .stmts _, m⟩ | ⟨fuel, .arms _, m⟩ | ⟨fuel, .rounds .., m⟩ | ⟨fuel, .members .., m⟩ =>
    cases fuel with
    | zero =>
      refine nil ?_
      rintro m f s ⟨⟩
    | succ fuel => exact Job.follows fuel m _ nofun

/-- A part that does not end with a result is the last one, and the evaluation stops as it does. -/
theorem stops_of_part {x y : Evaluation} {before after : List Evaluation} {stop : Stop}
    {s : Machine} (hx : x.parts = before ++ y :: after) (hy : y.outcome = (.error stop, s)) :
    after = [] ∧ x.outcome =
      (.error (stop.locatedAll (x.job.calls y.job)), { s with current := x.machine.current }) :=
  x.follows.stops before y after stop s hx hy

end Evaluation

end Treescript
