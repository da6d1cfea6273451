import Treescript.Proofs.PairedMachines

/-!
# Steps of paired machines

`Agree` says of two runs, one on each machine of a pairing, that they end alike and leave machines
that are paired again. One of the two runs is counted: it may end for want of fuel, and then nothing
is said. The rules for composing runs come first, then one for each step that evaluation is made of.
-/

namespace Treescript

/-- The run that is counted. -/
inductive Side where
  | first
  | second

namespace Side

/-- The other run has enough fuel for whatever the counted one does with its own. -/
def Covers (slack : Nat) : Side → Nat → Nat → Prop
  | first, n, n' => slack * n ≤ n'
  | second, n, n' => n' ≤ n

def Spent {α β : Type} : Side → Except Stop α → Except Stop β → Prop
  | first, result, _ => result = .error .outOfFuel
  | second, _, result => result = .error .outOfFuel

end Side

/-- Failures that are the same, except that an undefined variable may have a new name. -/
inductive Failure.Twins (L : Licence) : Failure → Failure → Prop
  | same (f : Failure) : Failure.Twins L f f
  | renamed {names : Equiv.Perm String} {token : Token} : L.renames names → ¬L.fresh token.text →
      Failure.Twins L ⟨token, .undefinedVariable token.text, none⟩
        ⟨token.renamed names, .undefinedVariable (names token.text), none⟩

inductive Corresponds (L : Licence) {α β : Type} (Q : α → β → Prop) :
    Except Stop α → Except Stop β → Prop
  | ok {a : α} {b : β} : Q a b → Corresponds L Q (.ok a) (.ok b)
  | failure {f f' : Failure} : f.Twins L f' →
      Corresponds L Q (.error (.failure f)) (.error (.failure f'))
  | fault : Corresponds L Q (.error .fault) (.error .fault)

def Agree {α β : Type} (L : Licence) (side : Side) (t : Pairing) (run : Run α) (run' : Run β)
    (Q : Pairing → α → β → Prop) : Prop :=
  side.Spent (run.run t.first).1 (run'.run t.second).1 ∨
    ∃ u : Pairing, t.Grows u ∧ u.Sound L ∧ (run.run t.first).2 = u.first ∧
      (run'.run t.second).2 = u.second ∧
      Corresponds L (Q u) (run.run t.first).1 (run'.run t.second).1

variable {L : Licence} {side : Side} {t : Pairing} {fs : List Frame} {α β γ δ : Type}

theorem Failure.Twins.locatedAt {f f' : Failure} (h : f.Twins L f') (token : Token) :
    (f.locatedAt token).Twins L (f'.locatedAt token) := by
  cases h with
  | same => exact .same _
  | @renamed names name hr hx =>
    by_cases hempty : name.text = ""
    · -- without a text there is nothing to rename
      have hname : names name.text = name.text := by rw [hempty, L.empty_eq names hr]
      rw [Token.renamed_of_eq hname, hname]
      exact .same _
    · have hempty' : names name.text ≠ "" := by
        rw [← L.empty_eq names hr]
        exact fun hc => hempty (names.injective hc)
      simp only [Failure.locatedAt, Token.isBlank, Token.text_renamed, beq_eq_false_iff_ne.2 hempty,
        beq_eq_false_iff_ne.2 hempty', Bool.false_and, Bool.false_eq_true, if_false]
      exact .renamed hr hx

theorem Corresponds.imp {Q R : α → β → Prop} {r : Except Stop α} {r' : Except Stop β}
    (h : Corresponds L Q r r') (hqr : ∀ a b, Q a b → R a b) : Corresponds L R r r' := by
  cases h with
  | ok hq => exact .ok (hqr _ _ hq)
  | failure htwins => exact .failure htwins
  | fault => exact .fault

namespace Agree

variable {run : Run α} {run' : Run β} {Q : Pairing → α → β → Prop}

theorem of_run {r : Except Stop α} {r' : Except Stop β} (u : Pairing)
    (hrun : run.run t.first = (r, u.first)) (hrun' : run'.run t.second = (r', u.second))
    (hg : t.Grows u) (hs : u.Sound L) (hc : Corresponds L (Q u) r r') :
    Agree L side t run run' Q := by
  refine .inr ⟨u, hg, hs, ?_, ?_, ?_⟩
  · rw [hrun]
  · rw [hrun']
  · rw [hrun, hrun']
    exact hc

/-- A step that leaves both machines as they are. -/
theorem still (h : t.Sound L) {r : Except Stop α} {r' : Except Stop β}
    (hrun : run.run t.first = (r, t.first)) (hrun' : run'.run t.second = (r', t.second))
    (hc : Corresponds L (Q t) r r') : Agree L side t run run' Q :=
  of_run t hrun hrun' (.refl t) h hc

theorem pure (h : t.Sound L) {a : α} {b : β} (hq : Q t a b) :
    Agree L side t (Pure.pure a) (Pure.pure b) Q :=
  still h rfl rfl (.ok hq)

theorem fault (h : t.Sound L) :
    Agree L side t (MonadExcept.throw Stop.fault) (MonadExcept.throw Stop.fault) Q :=
  still h rfl rfl .fault

theorem fail (h : t.Sound L) (token : Token) (cause : Cause) :
    Agree L side t (Run.fail token cause) (Run.fail token cause) Q :=
  still h rfl rfl (.failure (.same _))

theorem refuse (h : t.Sound L) (token : Token) (cause : Cause) (args : List Value) :
    Agree L side t (Run.refuse token cause args) (Run.refuse token cause args) Q :=
  still h rfl rfl (.failure (.same _))

theorem bind {f : α → Run γ} {f' : β → Run δ} {R : Pairing → γ → δ → Prop}
    (h : Agree L side t run run' Q)
    (hf : ∀ u a b, t.Grows u → u.Sound L → Q u a b → Agree L side u (f a) (f' b) R) :
    Agree L side t (run >>= f) (run' >>= f') R := by
  have hb := run_bind_eq run f t.first
  have hb' := run_bind_eq run' f' t.second
  rcases hr : run.run t.first with ⟨r, m⟩
  rcases hr' : run'.run t.second with ⟨r', m'⟩
  rw [hr] at hb
  rw [hr'] at hb'
  rw [Agree, hr, hr'] at h
  rcases h with hspent | ⟨u, hg, hs, rfl, rfl, hc⟩
  · -- out of fuel in the first part
    cases side with
    | first =>
      obtain rfl : r = .error .outOfFuel := hspent
      exact .inl (congrArg Prod.fst hb)
    | second =>
      obtain rfl : r' = .error .outOfFuel := hspent
      exact .inl (congrArg Prod.fst hb')
  · cases hc with
    | failure htwins => exact of_run u hb hb' hg hs (.failure htwins)
    | fault => exact of_run u hb hb' hg hs .fault
    | ok hq =>
      have hnext := hf u _ _ hg hs hq
      rw [Agree] at hnext ⊢
      rw [hb, hb']
      rcases hnext with hspent | ⟨v, hg', hrest⟩
      · exact .inl hspent
      · exact .inr ⟨v, hg.trans hg', hrest⟩

theorem ite {c : Prop} [Decidable c] {other : Run α} {other' : Run β}
    (h : c → Agree L side t run run' Q) (h' : ¬c → Agree L side t other other' Q) :
    Agree L side t (if c then run else other) (if c then run' else other') Q := by
  by_cases hc : c
  · rw [if_pos hc, if_pos hc]
    exact h hc
  · rw [if_neg hc, if_neg hc]
    exact h' hc

theorem locating (token : Token) (h : Agree L side t run run' Q) :
    Agree L side t (Run.locating token run) (Run.locating token run') Q := by
  have hl : (Run.locating token run).run t.first = _ := run_tryCatch_eq run _ t.first
  have hl' : (Run.locating token run').run t.second = _ := run_tryCatch_eq run' _ t.second
  rcases hr : run.run t.first with ⟨r, m⟩
  rcases hr' : run'.run t.second with ⟨r', m'⟩
  rw [hr] at hl
  rw [hr'] at hl'
  rw [Agree, hr, hr'] at h
  rcases h with hspent | ⟨u, hg, hs, rfl, rfl, hc⟩
  · cases side with
    | first =>
      obtain rfl : r = .error .outOfFuel := hspent
      exact .inl (congrArg Prod.fst hl)
    | second =>
      obtain rfl : r' = .error .outOfFuel := hspent
      exact .inl (congrArg Prod.fst hl')
  · cases hc with
    | ok hq => exact of_run u hl hl' hg hs (.ok hq)
    | failure htwins => exact of_run u hl hl' hg hs (.failure (htwins.locatedAt token))
    | fault => exact of_run u hl hl' hg hs .fault

/-- Runs in other scopes, from which both machines come back. -/
theorem within {i j : ScopeId} (h : Agree L side (t.moveTo i j) run run' Q)
    (hq : ∀ u a b, Q u a b → Q (u.moveTo t.first.current t.second.current) a b) :
    Agree L side t (Run.within i run) (Run.within j run') Q := by
  rcases h with hspent | ⟨u, hg, hs, hm, hm', hc⟩
  · exact .inl hspent
  · have hrun : (Run.within i run).run t.first = ((run.run (t.moveTo i j).first).1,
        (u.moveTo t.first.current t.second.current).first) :=
      Prod.ext rfl (congrArg (fun m : Machine => { m with current := t.first.current }) hm)
    have hrun' : (Run.within j run').run t.second = ((run'.run (t.moveTo i j).second).1,
        (u.moveTo t.first.current t.second.current).second) :=
      Prod.ext rfl (congrArg (fun m : Machine => { m with current := t.second.current }) hm')
    refine of_run _ hrun hrun' hg.moveTo (hs.moveTo _ _) ?_
    exact hc.imp (hq u)

theorem get (h : t.Sound L) :
    Agree L side t MonadState.get MonadState.get fun u m m' =>
      u = t ∧ m = t.first ∧ m' = t.second :=
  still h rfl rfl (.ok ⟨rfl, rfl, rfl⟩)

theorem store (h : t.Sound L) :
    Agree L side t Run.store Run.store fun u s s' =>
      u = t ∧ s = t.first.store ∧ s' = t.second.store :=
  still h rfl rfl (.ok ⟨rfl, rfl, rfl⟩)

end Agree

/-- The same value in both machines, which can be used. -/
def Value.Alike (t : Pairing) (v v' : Value) : Prop := v' = v ∧ v.Usable t

def Completion.Alike (t : Pairing) : Completion → Completion → Prop
  | .normal, .normal => True
  | .returned v, .returned v' => v.Alike t v'
  | _, _ => False

theorem Value.Alike.moveTo {v v' : Value} (h : v.Alike t v') (i j : ScopeId) :
    v.Alike (t.moveTo i j) v' := by
  obtain ⟨rfl, hv⟩ := h
  exact ⟨rfl, by cases v' <;> exact hv⟩

theorem Completion.Alike.moveTo {c c' : Completion} (h : c.Alike t c') (i j : ScopeId) :
    c.Alike (t.moveTo i j) c' := by
  match c, c', h with
  | .normal, .normal, _ => trivial
  | .returned _, .returned _, h => exact Value.Alike.moveTo h i j

section tables

variable (h : t.Sound L)

include h

theorem Pairing.Sound.typeName_eq (of : TypeRef) :
    t.second.store.typeName of = t.first.store.typeName of := by
  cases of <;> simp only [Store.typeName, h.objects, h.enums, h.forms]

theorem Pairing.Sound.map_closures_eq {f : Closure → γ}
    (hf : ∀ id (c c' : Closure), c.Pairs L t id c' → f c' = f c) (id : Nat) :
    t.second.store.closures[id]?.map f = t.first.store.closures[id]?.map f := by
  cases hc : t.first.store.closures[id]? with
  | none =>
    rw [Array.getElem?_eq_none_iff, ← h.closures_size, ← Array.getElem?_eq_none_iff] at hc
    rw [hc]
  | some c =>
    have hlt := (Array.getElem?_eq_some_iff.1 hc).1
    rw [← h.closures_size] at hlt
    have hc' := Array.getElem?_eq_getElem hlt
    rw [hc', Option.map_some, Option.map_some, hf id c _ (h.closures id c _ hc hc')]

theorem Pairing.Sound.display_eq : t.second.store.display = t.first.store.display := by
  funext v
  cases v with
  | operation id =>
    rw [Store.display, Store.display,
      h.map_closures_eq (f := fun c => c.declaration.name.text) fun _ _ _ hp => by rw [hp.name]]
  | type of => exact h.typeName_eq of
  | holder of id => cases of <;> simp only [Store.display, h.typeName_eq]
  | bool b => cases b <;> rfl
  | _ => rfl

theorem Pairing.Sound.closureArity_eq :
    t.second.store.closureArity = t.first.store.closureArity := by
  funext id
  rw [Store.closureArity, Store.closureArity, h.map_closures_eq fun _ _ _ hp => hp.arity]

theorem Pairing.Sound.pilot?_eq : t.second.store.pilot? = t.first.store.pilot? := by
  funext of
  cases of <;> simp only [Store.pilot?, h.objects]

theorem Pairing.Sound.bindable_of_pilot? {of : TypeRef} {id : Nat}
    (hid : t.first.store.pilot? of = some id) : t.bindable id := by
  cases of with
  | object k =>
    obtain ⟨type, htype, hget⟩ := Option.bind_eq_some_iff.1 hid
    exact (h.methods type (Array.mem_of_getElem? htype) pilotName id hget).2
  | enum | form => cases hid

theorem Pairing.Sound.arity?_eq (v : Value) : t.second.store.arity? v = t.first.store.arity? v := by
  cases v <;> simp only [Store.arity?, h.closureArity_eq, h.pilot?_eq]

theorem Pairing.Sound.between_eq (token : Token) (left right : Value) :
    Operator.between t.second.store token left right =
      Operator.between t.first.store token left right := by
  have hadd : Operator.add t.second.store left right = Operator.add t.first.store left right := by
    cases left <;> cases right <;> simp only [Operator.add, h.display_eq]
  simp only [Operator.between, hadd]

theorem Pairing.Sound.apply_eq (now : Float) (n : Native) (args : List Value) :
    n.apply t.second.store now (args.map .value) = n.apply t.first.store now (args.map .value) := by
  cases args with
  | nil => cases n <;> rfl
  | cons v rest => cases n <;> simp [Native.apply, Store.displaySignal, h.display_eq]

/-- Where the first machine reads or writes a variable, the second does so too. -/
theorem Pairing.Sound.target (hat : t.At fs) (hops : Option Nat) :
    (t.first.target? hops = none ∧ t.second.target? (hops.map (Frame.shift fs)) = none) ∨
    ∃ a, t.first.target? hops = some a ∧ a < t.first.store.scopes.size ∧
      t.second.target? (hops.map (Frame.shift fs)) = some (t.image a) ∧
      Frame.naming (t.frames a) 0 = Frame.namingOf fs hops := by
  cases hops with
  | some k => exact h.aligned.ancestor hat k
  | none =>
    obtain ⟨hlt, himage, hframes⟩ := h.aligned.globals
    exact .inr ⟨t.first.globals, rfl, hlt, congrArg some himage, by rw [hframes]; rfl⟩

theorem Pairing.Sound.twins (hat : t.At fs) (hops : Option Nat) {name : Token}
    (hx : L.fresh name.text → Frame.namingOf fs hops = Equiv.refl String) :
    Failure.Twins L ⟨name, .undefinedVariable name.text, none⟩
      ⟨name.renamed (Frame.namingOf fs hops),
        .undefinedVariable (Frame.namingOf fs hops name.text), none⟩ := by
  by_cases hfresh : L.fresh name.text
  · rw [hx hfresh]
    exact .same _
  · exact .renamed ((hat.licensed h.aligned).namingOf hops) hfresh

end tables

theorem Store.get?_setField_cases {s : Store} {id : Nat} {name x : String} {v u : Value}
    {fields : NameMap Value} (hf : fields ∈ (s.setField id name v).holders)
    (hu : fields.get? x = some u) : u = v ∨ ∃ old ∈ s.holders, old.get? x = some u := by
  obtain ⟨j, hj⟩ := Array.mem_iff_getElem?.1 hf
  rw [Store.setField, Array.getElem?_modify] at hj
  split at hj
  · obtain ⟨old, hold, rfl⟩ := Option.map_eq_some_iff.1 hj
    rw [NameMap.get?_insert] at hu
    split at hu
    · exact .inl (Option.some.inj hu).symm
    · exact .inr ⟨old, Array.mem_of_getElem? hold, hu⟩
  · exact .inr ⟨fields, Array.mem_of_getElem? hj, hu⟩

namespace Agree

theorem lookup (h : t.Sound L) (hat : t.At fs) (x : String) (hops : Option Nat) {k k' : Token}
    (hf : Failure.Twins L ⟨k, .undefinedVariable x, none⟩
      ⟨k', .undefinedVariable (Frame.namingOf fs hops x), none⟩) :
    Agree L side t (Run.lookup k x hops)
      (Run.lookup k' (Frame.namingOf fs hops x) (hops.map (Frame.shift fs))) Value.Alike := by
  have hrun := Run.lookup_run k x hops t.first
  have hrun' := Run.lookup_run k' (Frame.namingOf fs hops x) (hops.map (Frame.shift fs)) t.second
  rcases h.target hat hops with ⟨ht, ht'⟩ | ⟨a, ht, ha, ht', hnaming⟩
  · rw [ht] at hrun
    rw [ht'] at hrun'
    exact still h hrun hrun' (.failure hf)
  · have hget : t.second.store.scopes.get? (t.image a) (Frame.namingOf fs hops x) =
        t.first.store.scopes.get? a x := hnaming ▸ h.aligned.get a ha x
    rw [ht, Option.bind_some] at hrun
    rw [ht', Option.bind_some, hget] at hrun'
    cases hv : t.first.store.scopes.get? a x with
    | none =>
      rw [hv] at hrun hrun'
      exact still h hrun hrun' (.failure hf)
    | some v =>
      rw [hv] at hrun hrun'
      exact still h hrun hrun' (.ok ⟨rfl, h.values a x v hv⟩)

theorem assign (h : t.Sound L) (hat : t.At fs) (name : Token) (hops : Option Nat)
    (hx : L.fresh name.text → Frame.namingOf fs hops = Equiv.refl String) {v : Value}
    (hv : v.Usable t) :
    Agree L side t (Run.assign name hops v)
      (Run.assign (name.renamed (Frame.namingOf fs hops)) (hops.map (Frame.shift fs)) v)
      Value.Alike := by
  have hrun := Run.assign_run name hops v t.first
  have hrun' := Run.assign_run (name.renamed (Frame.namingOf fs hops)) (hops.map (Frame.shift fs)) v
    t.second
  have hf := h.twins hat hops hx
  rcases h.target hat hops with ⟨ht, ht'⟩ | ⟨a, ht, ha, ht', hnaming⟩
  · rw [ht] at hrun
    rw [ht'] at hrun'
    exact still h hrun hrun' (.failure hf)
  · have hget : t.second.store.scopes.get? (t.image a) (Frame.namingOf fs hops name.text) =
        t.first.store.scopes.get? a name.text := hnaming ▸ h.aligned.get a ha name.text
    rw [ht, Option.filter_some] at hrun
    rw [ht', Option.filter_some, Token.text_renamed, hget] at hrun'
    by_cases hbound : (t.first.store.scopes.get? a name.text).isSome
    · rw [if_pos hbound] at hrun hrun'
      rw [← hnaming] at hrun'
      have hg := t.grows_define a name.text v
      rw [← hnaming]
      exact of_run (t.define a name.text v) hrun hrun' hg (h.define ha name.text hv)
        (.ok ⟨rfl, hv.mono hg⟩)
    · rw [if_neg hbound] at hrun hrun'
      exact still h hrun hrun' (.failure hf)

theorem define (h : t.Sound L) (hat : t.At fs) {names : Equiv.Perm String}
    (hhere : Frame.here? fs = some names) (x : String) {v : Value} (hv : v.Usable t) :
    Agree L side t (Run.define x v) (Run.define (names x) v) fun _ _ _ => True := by
  obtain ⟨hlt, himage, hframes⟩ := (Pairing.stands_iff (hhere ▸ rfl)).1 hat
  have hnames : Frame.naming (t.frames t.first.current) 0 = names :=
    hframes ▸ Frame.naming_zero hhere
  have hrun' : (Run.define (names x) v).run t.second =
      (.ok (), (t.define t.first.current x v).second) := by
    rw [Pairing.define, ← himage, hnames]
    rfl
  exact of_run _ rfl hrun' (t.grows_define ..) (h.define hlt x hv) (.ok trivial)

theorem define_fixed (h : t.Sound L) (hat : t.At fs) {names : Equiv.Perm String}
    (hhere : Frame.here? fs = some names) {x : String} (hx : names x = x) {v : Value}
    (hv : v.Usable t) : Agree L side t (Run.define x v) (Run.define x v) fun _ _ _ => True := by
  have hdefine : Agree L side t (Run.define x v) (Run.define (names x) v) fun _ _ _ => True :=
    define h hat hhere x hv
  rwa [hx] at hdefine

theorem parent (h : t.Sound L) (hat : t.At fs) (hclear : Frame.Clear fs) (name : Token)
    (n n' : Nat) :
    Agree L side t ((Expr.parent name).eval (n + 1)) ((Expr.parent name).eval (n' + 1))
      Value.Alike := by
  refine (get h).bind fun u m m' _ _ ⟨hu, hm, hm'⟩ => ?_
  subst hu hm hm'
  rcases h.aligned.outer hclear.isSome_here? hat with ⟨ho, ho'⟩ | ⟨o, o', ho, ho', hstands⟩
  · rw [ho, ho']
    exact fail h name _
  · rw [ho, ho']
    dsimp only
    rw [h.aligned.resolve (fun names hn => hclear.names names (List.mem_of_mem_tail hn)) hstands]
    cases hv : u.first.store.scopes.resolve? o name.text with
    | none => exact fail h name _
    | some v =>
      obtain ⟨a, ha⟩ := Scopes.exists_get?_of_resolve? _ o name.text hv
      exact pure h ⟨rfl, h.values a name.text v ha⟩

theorem global (h : t.Sound L) (name : Token) (n n' : Nat) :
    Agree L side t ((Expr.global name).eval (n + 1)) ((Expr.global name).eval (n' + 1))
      Value.Alike := by
  refine (get h).bind fun u m m' _ _ ⟨hu, hm, hm'⟩ => ?_
  subst hu hm hm'
  have hget := h.aligned.get_here rfl h.aligned.globals name.text
  rw [Equiv.refl_apply] at hget
  rw [hget]
  cases hv : u.first.store.scopes.get? u.first.globals name.text with
  | none => exact fail h name _
  | some v => exact pure h ⟨rfl, h.values _ name.text v hv⟩

theorem operator (h : t.Sound L) (token : Token) {r : Except Cause Value}
    (hr : ∀ v, r = .ok v → v.IsConstant) :
    Agree L side t (Run.operator token r) (Run.operator token r) Value.Alike := by
  cases r with
  | error cause => exact fail h token cause
  | ok v => exact pure h ⟨rfl, (hr v rfl).usable t⟩

theorem between (h : t.Sound L) (token : Token) (left right : Value) :
    Agree L side t (do Run.operator token (Operator.between (← Run.store) token left right))
      (do Run.operator token (Operator.between (← Run.store) token left right)) Value.Alike := by
  refine (store h).bind fun u s s' _ _ ⟨hu, hs, hs'⟩ => ?_
  subst hu hs hs'
  rw [h.between_eq]
  exact operator h token fun _ => Operator.isConstant_of_between

section keeps

variable {run : Run α} {run' : Run β} {Q : Pairing → α → β → Prop} {a : α} {b : β}
  {m m' : Machine}

/-- A step that touches neither scopes nor operations. -/
theorem keeps (hrun : run.run t.first = (.ok a, m)) (hrun' : run'.run t.second = (.ok b, m'))
    (hk : t.Keeps m m') (hs : (t.replace m m').Sound L) (hq : Q (t.replace m m') a b) :
    Agree L side t run run' Q :=
  of_run (t.replace m m') hrun hrun' hk.grows hs (.ok hq)

/-- A step that touches only the clock and what the outside sees. -/
theorem keeps_store (h : t.Sound L) (hrun : run.run t.first = (.ok a, m))
    (hrun' : run'.run t.second = (.ok b, m')) (hm : m.store = t.first.store)
    (hm' : m'.store = t.second.store) (hg : m.globals = t.first.globals ∧
      m'.globals = t.second.globals ∧ m.current = t.first.current ∧
      m'.current = t.second.current) (hrest : m'.clock = m.clock ∧ m'.events = m.events)
    (hq : Q (t.replace m m') a b) : Agree L side t run run' Q := by
  have hk : t.Keeps m m' := by
    refine ⟨?_, ?_, ?_, ?_, hg.1, hg.2.1, hg.2.2.1, hg.2.2.2⟩
    · rw [hm]
    · rw [hm']
    · rw [hm]
    · rw [hm']
  refine keeps hrun hrun' hk (h.replace hk ?_ ?_ ?_ ⟨?_, ?_, ?_, ?_, hrest⟩) hq
  · rw [hm]
    exact h.fields
  · rw [hm]
    exact h.members
  · rw [hm]
    exact h.methods
  · rw [hm, hm', h.objects]
  · rw [hm, hm', h.enums]
  · rw [hm, hm', h.forms]
  · rw [hm, hm', h.holders]

end keeps

theorem emit (h : t.Sound L) (e : Event) :
    Agree L side t (Run.emit e) (Run.emit e) fun _ _ _ => True :=
  keeps_store h rfl rfl rfl rfl ⟨rfl, rfl, rfl, rfl⟩
    ⟨h.clock, congrArg (Array.push · e) h.events⟩ trivial

theorem now (h : t.Sound L) : Agree L side t Run.now Run.now fun _ time time' => time' = time :=
  keeps_store h rfl rfl rfl rfl ⟨rfl, rfl, rfl, rfl⟩
    ⟨congrArg (fun c : Clock => { c with taken := c.taken + 1 }) h.clock, h.events⟩
    (congrArg (fun c : Clock => c.reading c.taken) h.clock)

theorem applied (h : t.Sound L) (n : Native) (time : Float) (args : List Value) :
    Agree L side t (do
        match ← Run.found (n.apply (← Run.store) time (args.map .value)) with
        | .ok value => Pure.pure value
        | .error cause => Run.fail .blank cause)
      (do
        match ← Run.found (n.apply (← Run.store) time (args.map .value)) with
        | .ok value => Pure.pure value
        | .error cause => Run.fail .blank cause) Value.Alike := by
  refine (store h).bind fun u s s' _ _ ⟨hu, hs, hs'⟩ => ?_
  subst hu hs hs'
  rw [h.apply_eq]
  cases happ : n.apply u.first.store time (args.map .value) with
  | none => exact fault h
  | some r =>
    cases r with
    | error cause => exact fail h _ cause
    | ok v => exact pure h ⟨rfl, (Native.isConstant_of_apply happ).usable u⟩

theorem native (h : t.Sound L) (n : Native) (args : List Value) (k k' : Nat) :
    Agree L side t (Value.call (k + 1) (.native n) args) (Value.call (k' + 1) (.native n) args)
      Value.Alike := by
  rw [Value.call, Value.call]
  split
  · refine (now h).bind fun u time time' _ hu htime => ?_
    subst htime
    exact applied hu n time' args
  · exact applied h n 0 args

theorem addHolder (h : t.Sound L) :
    Agree L side t (Run.onStore (·.addHolder)) (Run.onStore (·.addHolder)) fun _ id id' =>
      id' = id := by
  have hk : t.Keeps { t.first with store := t.first.store.addHolder.1 }
      { t.second with store := t.second.store.addHolder.1 } :=
    ⟨rfl, rfl, rfl, rfl, rfl, rfl, rfl, rfl⟩
  refine keeps rfl rfl hk (h.replace hk ?_ h.members h.methods ⟨h.objects, h.enums, h.forms,
    congrArg (Array.push · .empty) h.holders, h.clock, h.events⟩) (congrArg Array.size h.holders)
  intro fields hf x v hv
  rcases Array.mem_push.1 hf with hf | rfl
  · exact h.fields fields hf x v hv
  · cases hv

theorem setProperty (h : t.Sound L) (id : Nat) (name : Token) {v : Value} (hv : v.Usable t) :
    Agree L side t (Run.setProperty id name v) (Run.setProperty id name v) fun u _ _ =>
      v.Usable u := by
  have hk : t.Keeps { t.first with store := t.first.store.setField id name.text v }
      { t.second with store := t.second.store.setField id name.text v } :=
    ⟨rfl, rfl, rfl, rfl, rfl, rfl, rfl, rfl⟩
  refine keeps rfl rfl hk (h.replace hk ?_ h.members h.methods ⟨h.objects, h.enums, h.forms,
    congrArg (fun hs : Array (NameMap Value) => hs.modify id (·.insert name.text v)) h.holders,
    h.clock, h.events⟩) (hv.mono hk.grows)
  intro fields hf x u hu
  rcases Store.get?_setField_cases hf hu with rfl | ⟨old, hold, hu⟩
  · exact hv
  · exact h.fields old hold x u hu

theorem found (h : t.Sound L) (a? : Option α) :
    Agree L side t (Run.found a?) (Run.found a?) fun u a b => u = t ∧ b = a ∧ a? = some a := by
  cases a? with
  | none => exact fault h
  | some a => exact pure h ⟨rfl, rfl, rfl⟩

theorem foundClosure (h : t.Sound L) (id : Nat) :
    Agree L side t (Run.found t.first.store.closures[id]?) (Run.found t.second.store.closures[id]?)
      fun u c c' => u = t ∧ c.Pairs L t id c' := by
  cases hc : t.first.store.closures[id]? with
  | none =>
    have hc' : t.second.store.closures[id]? = none := by
      rwa [Array.getElem?_eq_none_iff, h.closures_size, ← Array.getElem?_eq_none_iff]
    rw [hc']
    exact fault h
  | some c =>
    have hlt := (Array.getElem?_eq_some_iff.1 hc).1
    rw [← h.closures_size] at hlt
    have hc' := Array.getElem?_eq_getElem hlt
    rw [hc']
    exact pure h ⟨rfl, h.closures id c _ hc hc'⟩

/-- An operation is looked up in the store before it is used. -/
theorem closure (h : t.Sound L) (id : Nat) {f f' : Closure → Run α} {Q : Pairing → α → α → Prop}
    (hf : ∀ c c', c.Pairs L t id c' → Agree L side t (f c) (f' c') Q) :
    Agree L side t (Run.store >>= fun s => Run.found s.closures[id]? >>= f)
      (Run.store >>= fun s => Run.found s.closures[id]? >>= f') Q := by
  refine (store h).bind fun u s s' _ _ ⟨hu, hs, hs'⟩ => ?_
  subst hu hs hs'
  refine (foundClosure h id).bind fun w c c' _ _ ⟨hw, hp⟩ => ?_
  subst hw
  exact hf c c' hp

theorem bindSelf (h : t.Sound L) {id : Nat} {c c' : Closure} (hp : c.Pairs L t id c')
    (hb : t.bindable id) {v : Value} (hv : v.Usable t) :
    Agree L side t (Run.onStore (·.bindSelf c v)) (Run.onStore (·.bindSelf c' v)) fun u id id' =>
      id' = id ∧ (Value.operation id).Usable u := by
  obtain ⟨hs, hg⟩ := h.bindSelf hp.lt hp.scope hp.isPilot (hp.bindable hb) hv
  have hrun' : (Run.onStore (·.bindSelf c' v)).run t.second =
      (.ok t.second.store.closures.size, (t.bindSelf c c' v).second) := by
    rw [Pairing.second_bindSelf]
    rfl
  exact of_run (t.bindSelf c c' v) rfl hrun' hg hs
    (.ok ⟨h.closures_size, Pairing.callable_addClosure ..⟩)

/-- Runs in a new scope of both machines. -/
theorem opened (h : t.Sound L) (hat : t.At fs) {names : Equiv.Perm String} (hr : L.renames names)
    {run run' : Run Completion} (hb : ∀ u : Pairing, u.Sound L → u.At (.shared names :: fs) →
      Agree L side u run run' Completion.Alike) :
    Agree L side t
      (do let current := (← MonadState.get).current
          let scope ← Run.onStore (·.enterScope current)
          Run.within scope run)
      (do let current := (← MonadState.get).current
          let scope ← Run.onStore (·.enterScope current)
          Run.within scope run') Completion.Alike := by
  refine (get h).bind fun u m m' _ _ ⟨hu, hm, hm'⟩ => ?_
  subst hu hm hm'
  have henter : Agree L side u (Run.onStore (·.enterScope u.first.current))
      (Run.onStore (·.enterScope u.second.current)) fun w i j =>
        w.Stands (.shared names :: fs) i j :=
    of_run (u.enter names fs u.first.current u.second.current) rfl rfl
      (Pairing.grows_enter h.aligned ..) (h.enter hr hat) (.ok (Pairing.stands_enter ..))
  refine henter.bind fun w i j _ hw hs => ?_
  exact within (hb (w.moveTo i j) (hw.moveTo i j) (hs.moveTo i j)) fun _ _ _ hc => hc.moveTo _ _

/-- Runs of which only the second is in a new scope. -/
theorem wrapped (h : t.Sound L) (hat : t.At fs) {run run' : Run Completion}
    (hb : ∀ u : Pairing, u.Sound L → u.At (.added :: fs) →
      Agree L side u run run' Completion.Alike) :
    Agree L side t run
      (do let current := (← MonadState.get).current
          let scope ← Run.onStore (·.enterScope current)
          Run.within scope run') Completion.Alike := by
  have hat' := Pairing.stands_enterAdded h.aligned hat
  have hagree := hb ((t.enterAdded t.second.current).moveTo t.first.current
    t.second.store.scopes.size) ((h.enterAdded _).moveTo _ _) (hat'.moveTo _ _)
  rcases hagree with hspent | ⟨u, hg, hs, hm, hm', hc⟩
  · exact .inl hspent
  · have hback := hg.moveTo
    have hfirst : u.first = { u.first with current := t.first.current } := by
      rw [← show u.first.current = t.first.current from hg.first_current]
    have hgrows := (Pairing.grows_enterAdded h.aligned t.second.current).trans hback
    refine .inr ⟨u.moveTo t.first.current t.second.current, hgrows, hs.moveTo _ _,
      hm.trans hfirst, ?_, ?_⟩
    · exact congrArg (fun m : Machine => { m with current := t.second.current }) hm'
    · exact hc.imp fun _ _ hq => hq.moveTo _ _

theorem enterCall (h : t.Sound L) {c c' : Closure} (hlt : c.scope < t.first.store.scopes.size)
    (hscope : c'.scope = t.image c.scope) {names : Equiv.Perm String} (hr : L.renames names)
    (hparams : c'.declaration.params = c.declaration.params.map (·.renamed names))
    {args : List Value} (hargs : ∀ v ∈ args, v.Usable t) :
    Agree L side t (Run.enterCall c args) (Run.enterCall c' args) fun u i j =>
      u.Stands (.shared names :: t.frames c.scope) i j := by
  have hbindings : ∀ b ∈ (c.declaration.params.map (·.text)).zip args, b.2.Usable t :=
    fun b hb => hargs b.2 (List.of_mem_zip hb).2
  obtain ⟨hs, hg, hstands⟩ := h.openCall hlt hscope hr hbindings
  have hrun : (Run.enterCall c args).run t.first = (.ok t.first.store.scopes.size,
      (t.openCall names c c' ((c.declaration.params.map (·.text)).zip args)).first) := by
    rw [Pairing.openCall, Pairing.first_defineAll]
    rfl
  have hrun' : (Run.enterCall c' args).run t.second = (.ok t.second.store.scopes.size,
      (t.openCall names c c' ((c.declaration.params.map (·.text)).zip args)).second) := by
    have hnames : c'.declaration.params.map (·.text) =
        (c.declaration.params.map (·.text)).map names := by
      rw [hparams, List.map_map, List.map_map]
      rfl
    rw [Pairing.second_openCall, ← List.zip_map_left, ← hnames]
    rfl
  exact of_run _ hrun hrun' hg hs (.ok hstands)

theorem declareOperation (h : t.Sound L) (hat : t.At fs) {names : Equiv.Perm String}
    (hhere : Frame.here? fs = some names) {o o' : Operation}
    (hname : names o.name.text = o.name.text) (hr : o.Revises L fs o') :
    Agree L side t
      (do let scope := (← MonadState.get).current
          let id ← Run.onStore (·.addClosure ⟨o, scope, false⟩)
          Run.define o.name.text (.operation id)
          return Completion.normal)
      (do let scope := (← MonadState.get).current
          let id ← Run.onStore (·.addClosure ⟨o', scope, false⟩)
          Run.define o'.name.text (.operation id)
          return Completion.normal) Completion.Alike := by
  obtain ⟨hlt, himage, hframes⟩ := (Pairing.stands_iff (hhere ▸ rfl)).1 hat
  refine (get h).bind fun u m m' _ _ hget => ?_
  obtain ⟨rfl, rfl, rfl⟩ := hget
  have hg := u.grows_addClosure ⟨o, u.first.current, false⟩ ⟨o', u.second.current, false⟩ true
  have hadd : Agree L side u (Run.onStore (·.addClosure ⟨o, u.first.current, false⟩))
      (Run.onStore (·.addClosure ⟨o', u.second.current, false⟩)) fun w id id' =>
        w.At fs ∧ id' = id ∧ (Value.operation id).Usable w := by
    refine of_run _ rfl rfl hg (h.addClosure hlt himage rfl ?_)
      (.ok ⟨hat.mono hg, h.closures_size, Pairing.callable_addClosure ..⟩)
    rw [Pairing.around, if_pos rfl, hframes]
    exact hr
  refine hadd.bind fun w id id' _ hw hadded => ?_
  obtain ⟨hat, rfl, husable⟩ := hadded
  rw [hr.name_eq]
  exact (define_fixed hw hat hhere hname husable).bind fun _ _ _ _ hw _ => pure hw trivial

theorem getProperty (h : t.Sound L) (of : TypeRef) (id : Nat) (name : Token) :
    Agree L side t (Run.getProperty of id name) (Run.getProperty of id name) Value.Alike := by
  refine (store h).bind fun u s s' _ _ ⟨hu, hs, hs'⟩ => ?_
  subst hu hs hs'
  rw [Store.fields?, Store.fields?, h.holders]
  refine (found h _).bind fun w fields fields' _ _ ⟨hw, hf, hfields⟩ => ?_
  subst hw hf
  cases hv : fields'.get? name.text with
  | some v =>
    simp only
    exact pure h ⟨rfl, h.fields fields' (Array.mem_of_getElem? hfields) name.text v hv⟩
  | none =>
    simp only
    cases of with
    | object k =>
      simp only [h.objects]
      refine (found h _).bind fun w type type' _ _ ⟨hw, ht, htype⟩ => ?_
      subst hw ht
      cases hm : type'.methods.get? name.text with
      | none => exact fail h name _
      | some method =>
        have hb := (h.methods type' (Array.mem_of_getElem? htype) name.text method hm).2
        refine (foundClosure h method).bind fun w c c' _ _ ⟨hw, hp⟩ => ?_
        subst hw
        have hself : Value.Usable w (.holder (.object k) id) := trivial
        refine (bindSelf h hp hb hself).bind fun w id id' _ hw ⟨hid, husable⟩ => ?_
        subst hid
        exact pure hw ⟨rfl, husable⟩
    | enum k =>
      simp only [h.enums]
      refine (found h _).bind fun w type type' _ _ ⟨hw, ht, _⟩ => ?_
      subst hw ht
      cases name.literal.integer?.bind fun n => type'.elementName? n.toInt with
      | some element => exact pure h ⟨rfl, trivial⟩
      | none =>
        cases type'.ordinal? name.text with
        | some ordinal => exact pure h ⟨rfl, trivial⟩
        | none => exact fail h name _
    | form k =>
      simp only [h.forms]
      refine (found h _).bind fun w type type' _ _ ⟨hw, ht, htype⟩ => ?_
      subst hw ht
      cases hm : type'.members.get? name.text with
      | none => exact fail h name _
      | some v => exact pure h ⟨rfl, h.members type' (Array.mem_of_getElem? htype) name.text v hm⟩

section types

variable {names : Equiv.Perm String} {name : Token}

theorem addEnum (h : t.Sound L) (type : EnumType) :
    Agree L side t (Run.onStore (·.addEnum type)) (Run.onStore (·.addEnum type)) fun _ of of' =>
      of' = of := by
  have hk : t.Keeps { t.first with store := (t.first.store.addEnum type).1 }
      { t.second with store := (t.second.store.addEnum type).1 } :=
    ⟨rfl, rfl, rfl, rfl, rfl, rfl, rfl, rfl⟩
  exact keeps rfl rfl hk (h.replace hk h.fields h.members h.methods ⟨h.objects,
    congrArg (Array.push · type) h.enums, h.forms, h.holders, h.clock, h.events⟩)
    (congrArg (fun es : Array EnumType => TypeRef.enum es.size) h.enums)

theorem addForm (h : t.Sound L) (type : FormType)
    (hm : ∀ x v, type.members.get? x = some v → v.Usable t) :
    Agree L side t (Run.onStore (·.addForm type)) (Run.onStore (·.addForm type)) fun _ of of' =>
      of' = of := by
  have hk : t.Keeps { t.first with store := (t.first.store.addForm type).1 }
      { t.second with store := (t.second.store.addForm type).1 } :=
    ⟨rfl, rfl, rfl, rfl, rfl, rfl, rfl, rfl⟩
  refine keeps rfl rfl hk (h.replace hk h.fields ?_ h.methods ⟨h.objects, h.enums,
    congrArg (Array.push · type) h.forms, h.holders, h.clock, h.events⟩)
    (congrArg (fun fs : Array FormType => TypeRef.form fs.size) h.forms)
  intro other ho x v hv
  rcases Array.mem_push.1 ho with ho | rfl
  · exact h.members other ho x v hv
  · exact hm x v hv

theorem addObject (h : t.Sound L) (type : ObjectType)
    (hm : ∀ x id, type.methods.get? x = some id →
      id < t.first.store.closures.size ∧ t.bindable id) :
    Agree L side t (Run.onStore (·.addObject type)) (Run.onStore (·.addObject type))
      fun _ of of' => of' = of := by
  have hk : t.Keeps { t.first with store := (t.first.store.addObject type).1 }
      { t.second with store := (t.second.store.addObject type).1 } :=
    ⟨rfl, rfl, rfl, rfl, rfl, rfl, rfl, rfl⟩
  refine keeps rfl rfl hk (h.replace hk h.fields h.members ?_
    ⟨congrArg (Array.push · type) h.objects, h.enums, h.forms, h.holders, h.clock, h.events⟩)
    (congrArg (fun os : Array ObjectType => TypeRef.object os.size) h.objects)
  intro other ho x id hid
  rcases Array.mem_push.1 ho with ho | rfl
  · exact h.methods other ho x id hid
  · exact hm x id hid

/-- The last steps of declaring a type: its name is bound, and that is logged. -/
theorem announced (h : t.Sound L) (hat : t.At fs) (hhere : Frame.here? fs = some names)
    {x : String} (hx : names x = x) (of : TypeRef) (e : Event) :
    Agree L side t (do Run.define x (.type of); Run.emit e)
      (do Run.define x (.type of); Run.emit e) fun _ _ _ => True := by
  have hdefine : Agree L side t (Run.define x (.type of)) (Run.define x (.type of))
      fun _ _ _ => True := define_fixed h hat hhere hx trivial
  exact hdefine.bind fun u _ _ _ hu _ => emit hu e

theorem declareEnum (h : t.Sound L) (hat : t.At fs) (hhere : Frame.here? fs = some names)
    (hx : names name.text = name.text) (elements : List Token) :
    Agree L side t (Run.declareEnum name elements) (Run.declareEnum name elements)
      fun _ _ _ => True := by
  have hnone : Agree L side t (Run.define name.text .none) (Run.define name.text .none)
      fun _ _ _ => True := define_fixed h hat hhere hx trivial
  refine hnone.bind fun u _ _ hg hu _ => ?_
  refine (addEnum hu _).bind fun w of of' hg' hw hof => ?_
  subst hof
  exact announced hw (hat.mono (hg.trans hg')) hhere hx of' _

theorem declareForm (h : t.Sound L) (hat : t.At fs) (hhere : Frame.here? fs = some names)
    (hx : names name.text = name.text) {members : NameMap Value}
    (hm : ∀ x v, members.get? x = some v → v.Usable t) :
    Agree L side t (Run.declareForm name members) (Run.declareForm name members)
      fun _ _ _ => True := by
  refine (addForm h _ hm).bind fun w of of' hg hw hof => ?_
  subst hof
  exact announced hw (hat.mono hg) hhere hx of' _

theorem declareObject (h : t.Sound L) (hat : t.At fs) (hhere : Frame.here? fs = some names)
    (hx : names name.text = name.text) {os os' : List Operation}
    (hr : Operation.RevisesList L (.shared (Equiv.refl String) :: fs) os os') :
    Agree L side t (Run.declareObject name os) (Run.declareObject name os')
      fun _ _ _ => True := by
  have hnone : Agree L side t (Run.define name.text .none) (Run.define name.text .none)
      fun _ _ _ => True := define_fixed h hat hhere hx trivial
  refine hnone.bind fun u _ _ hg hu _ => ?_
  have hat := hat.mono hg
  refine (get hu).bind fun w m m' _ _ ⟨hw, hm, hm'⟩ => ?_
  subst hw hm hm'
  obtain ⟨hlt, himage, hframes⟩ := (Pairing.stands_iff (hhere ▸ rfl)).1 hat
  rw [← hframes] at hr
  have hempty : ∀ x id, (NameMap.empty : NameMap Nat).get? x = some id →
      id < w.first.store.closures.size ∧ w.bindable id := nofun
  obtain ⟨htables, v, hv, hgrows, hfirst, hsecond, hmethods⟩ := hu.addMethods hlt hr hempty
  rw [← himage] at htables hsecond
  have hadd : Agree L side w (Run.onStore (·.addMethods w.first.current os))
      (Run.onStore (·.addMethods w.second.current os')) fun u table table' => table' = table ∧
        ∀ x id, table.get? x = some id → id < u.first.store.closures.size ∧ u.bindable id :=
    of_run v (hfirst ▸ rfl) (hsecond ▸ rfl) hgrows hv (.ok ⟨htables, hmethods⟩)
  refine hadd.bind fun u table table' hg hu ⟨htable, hmethods⟩ => ?_
  subst htable
  refine (addObject hu _ hmethods).bind fun w of of' hg' hw hof => ?_
  subst hof
  exact announced hw (hat.mono (hg.trans hg')) hhere hx of' _

end types

end Agree

end Treescript
