import Treescript.Proofs.Worlds

/-!
# What stays unbound

The other side of a world that only grows: which names a scope does not bind. A step binds new names
in one scope only, and the text says which. So while a place is being evaluated, its scope binds
nothing but the names seen before the place, and not yet the name whose initial value the place is
in. This holds of strict programs: the body of a loop that declares names in the scope around the
loop finds them bound when it runs again.
-/

namespace Treescript

namespace World

/-- Of the scopes that are there, only one has new names, and only the given ones. -/
def Frames (w w' : World) (i : ScopeId) (names : List String) : Prop :=
  ∀ j < w.scopes.size, ∀ x, w'.Binds j x → w.Binds j x ∨ (j = i ∧ x ∈ names)

/-- The scope binds only names that have been seen, and not the one that is being defined. -/
def Exact (w : World) (P : Place) (i : ScopeId) : Prop :=
  ∀ layer ∈ P.layers.head?, ∀ x, w.Binds i x → x ∈ layer.seen ∧ P.defining ≠ some x

/-- The scope is an activation of the innermost local scope around the place, and its evaluation has
come as far as the place. -/
def Occupies (T : Texts) (w : World) (P : Place) (i : ScopeId) : Prop :=
  w.Activates T P i ∧ (T.strict P.program → w.Exact P i)

variable {w w' : World} {i : ScopeId} {N M : List String}

namespace Frames

theorem refl (w : World) (i : ScopeId) (names : List String) : w.Frames w i names :=
  fun _ _ _ hb => .inl hb

theorem weaken (h : w.Frames w' i N) (hsub : N ⊆ M) : w.Frames w' i M := by
  intro j hj x hb
  rcases h j hj x hb with hb | ⟨hi, hx⟩
  · exact .inl hb
  · exact .inr ⟨hi, hsub hx⟩

theorem trans {w₁ w₂ w₃ : World} (h : w₁.Frames w₂ i N) (hg : w₁.Grows w₂)
    (h' : w₂.Frames w₃ i M) : w₁.Frames w₃ i (N ++ M) := by
  intro j hj x hb
  rcases h' j (hj.trans_le hg.scopes_le) x hb with hb | ⟨hi, hx⟩
  · rcases h j hj x hb with hb | ⟨hi, hx⟩
    · exact .inl hb
    · exact .inr ⟨hi, List.mem_append_left _ hx⟩
  · exact .inr ⟨hi, List.mem_append_right _ hx⟩

theorem of_nil {j : ScopeId} (h : w.Frames w' j []) : w.Frames w' i N := by
  intro k hk x hb
  rcases h k hk x hb with hb | ⟨-, hx⟩
  · exact .inl hb
  · exact absurd hx List.not_mem_nil

/-- What happens in a scope that was not there does not concern those that were. -/
theorem of_new {n : ScopeId} (h : w.Frames w' n N) (hn : w.scopes.size ≤ n) :
    w.Frames w' i M := by
  intro j hj x hb
  rcases h j hj x hb with hb | ⟨rfl, -⟩
  · exact .inl hb
  · exact absurd (hj.trans_le hn) (lt_irrefl _)

theorem of_scopes_eq (h : w'.scopes = w.scopes) : w.Frames w' i N := by
  intro j _ x hb
  rw [Binds, h] at hb
  exact .inl hb

end Frames

theorem frames_define (w : World) (i : ScopeId) (x : String) (v : Value) :
    w.Frames (w.define i x v) i [x] := by
  intro j _ y hb
  obtain ⟨u, hu⟩ := Option.isSome_iff_exists.1 hb
  rcases Scopes.get?_define_cases _ hu with ⟨rfl, rfl, -⟩ | hu
  · exact .inr ⟨rfl, List.mem_singleton_self _⟩
  · exact .inl (Option.isSome_iff_exists.2 ⟨u, hu⟩)

/-- Writing to a name that is bound binds nothing new. -/
theorem frames_define_of_binds {j : ScopeId} {x : String} (hb : w.Binds j x) (v : Value) :
    w.Frames (w.define j x v) i N := by
  intro k hk y hy
  rcases w.frames_define j x v k hk y hy with hy | ⟨rfl, hx⟩
  · exact .inl hy
  · obtain rfl := List.mem_singleton.1 hx
    exact .inl hb

theorem frames_defineAll (w : World) (i : ScopeId) (entries : List (String × Value)) :
    w.Frames (w.defineAll i entries) i (entries.map Prod.fst) := by
  induction entries generalizing w with
  | nil => exact .refl w i []
  | cons entry rest ih =>
    exact (w.frames_define i entry.1 entry.2).trans (w.grows_define i entry.1 entry.2) (ih _)

theorem frames_enter (w : World) (outer : ScopeId) (regions : List Region) :
    w.Frames (w.enter outer regions) i N := by
  intro j _ x hb
  rw [Binds, get?_enter] at hb
  exact .inl hb

/-- A new scope binds only what is put into it. -/
theorem mem_of_binds_openScope {outer : ScopeId} {regions : List Region}
    {bindings : List (String × Value)} {x : String}
    (hb : (w.openScope outer regions bindings).Binds w.scopes.size x) :
    x ∈ bindings.map Prod.fst := by
  have hlt : w.scopes.size < (w.enter outer regions).scopes.size :=
    (w.size_enter outer regions).symm ▸ Nat.lt_succ_self _
  have hall := frames_defineAll (w.enter outer regions) w.scopes.size bindings
  rcases hall w.scopes.size hlt x hb with hb | ⟨-, hx⟩
  · rw [Binds, get?_enter] at hb
    obtain ⟨v, hv⟩ := Option.isSome_iff_exists.1 hb
    exact absurd (Scopes.lt_size_of_get?_eq_some _ hv) (lt_irrefl _)
  · exact hx

theorem frames_openScope (w : World) (outer : ScopeId) (regions : List Region)
    (bindings : List (String × Value)) :
    w.Frames (w.openScope outer regions bindings) i N := by
  have henter : w.Frames (w.enter outer regions) w.scopes.size [] := w.frames_enter outer regions
  have hall := frames_defineAll (w.enter outer regions) w.scopes.size bindings
  exact (henter.trans (w.grows_enter outer regions) hall).of_new (le_refl _)

theorem frames_declareOperation (w : World) (i : ScopeId) (o : Operation) (P : Place) :
    w.Frames (w.declareOperation i o P) i [o.name.text] :=
  frames_define (w.addClosure _ _) i o.name.text _

theorem scopes_addMethods (w : World) (scope : ScopeId) (P : Place) (methods : List Operation) :
    (w.addMethods scope P methods).scopes = w.scopes := by
  induction methods generalizing w P with
  | nil => rfl
  | cons o rest ih => exact ih _ _

theorem frames_declareObject (w : World) (i : ScopeId) (name : String) (P : Place)
    (methods : List Operation) : w.Frames (w.declareObject i name P methods) i [name] := by
  have hnamed := w.frames_define i name .none
  have hmade : (w.define i name .none).Frames
      ((w.define i name .none).addMethods i P methods) i [] :=
    .of_scopes_eq (scopes_addMethods ..)
  have hmethods := hnamed.trans (w.grows_define i name .none) hmade
  have hgrows := (w.grows_define i name .none).trans (grows_addMethods _ i P methods)
  have hobject : ((w.define i name .none).addMethods i P methods).Frames
      (w.declareObject i name P methods) i [name] := frames_define (World.addObject _ _) i name _
  refine (hmethods.trans hgrows hobject).weaken fun x hx => ?_
  simpa using hx

variable {T : Texts} {P : Place}

/-- A place stays occupied as long as nothing is bound in its scope. -/
theorem Occupies.mono (hg : w.Grows w') {names : List String} (hfr : w.Frames w' i names)
    (hn : T.strict P.program → names = []) (h : w.Occupies T P i) : w'.Occupies T P i := by
  refine ⟨h.1.mono hg, fun hs layer hl x hb => h.2 hs layer hl x ?_⟩
  rcases hfr i h.1.1 x hb with hb | ⟨-, hx⟩
  · exact hb
  · rw [hn hs] at hx
    exact absurd hx List.not_mem_nil

theorem Occupies.after {names : List String} (hd : P.defining = none) (h : w.Occupies T P i)
    (hfr : w.Frames w' i names) (ha : w'.Activates T (P.after names) i) :
    w'.Occupies T (P.after names) i := by
  refine ⟨ha, fun hs => ?_⟩
  have hexact := h.2 hs
  have hlt := h.1.1
  obtain ⟨_, _, layers, _, _, defining⟩ := P
  obtain rfl : defining = none := hd
  cases layers with
  | nil => exact nofun
  | cons first outer =>
    rintro _ ⟨⟩ x hb
    refine ⟨List.mem_append.2 ?_, nofun⟩
    rcases hfr i hlt x hb with hb | ⟨-, hx⟩
    · exact .inl (hexact first rfl x hb).1
    · exact .inr hx

theorem Occupies.after_of_strict {names : List String} (h : w.Occupies T P i)
    (hn : T.strict P.program → names = []) : w.Occupies T (P.after names) i := by
  refine ⟨h.1.after_of_strict hn, fun hs => ?_⟩
  rw [hn hs, Place.after_nil]
  exact h.2 hs

/-- In the initial value of a definition the name is not bound yet, if it is new in its scope. -/
theorem Occupies.initializer (hd : P.defining = none) (h : w.Occupies T P i) {x : String}
    (hx : T.strict P.program → ¬P.Declared 0 x) : w.Occupies T (P.initializer x) i := by
  refine ⟨h.1.initializer hd x, fun hs => ?_⟩
  have hexact := h.2 hs
  have hnew := hx hs
  obtain ⟨_, _, layers, _, _, _⟩ := P
  cases layers with
  | nil => exact nofun
  | cons first outer =>
    rintro _ ⟨⟩ y hb
    obtain ⟨hy, -⟩ := hexact first rfl y hb
    refine ⟨List.mem_append_left _ hy, fun hxy => ?_⟩
    obtain rfl := Option.some.inj hxy
    exact hnew ⟨first, rfl, hy⟩

end World

end Treescript
