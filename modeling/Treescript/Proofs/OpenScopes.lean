import Treescript.Proofs.Places
import Treescript.Symbols

/-!
# Open scopes and places

What it means that the symbol scopes a walk has open are the local scopes around a place: there are
as many of them, each declares the names seen in its layer, and every name is defined but the one in
whose initial value the place is. The operations on symbol scopes follow the moves between places,
and the questions that resolution asks of them are questions about the place.
-/

namespace Treescript

/-- The scope declares the names that are seen, and all but one of them are defined. -/
def SymbolScope.Holds (scope : SymbolScope) (seen : List String) (defining : Option String) :
    Prop :=
  ∀ x, (scope.get? x).map (·.defined) =
    if x ∈ seen then some (decide (defining ≠ some x)) else none

theorem SymbolScope.Holds.isSome_eq {scope : SymbolScope} {seen : List String}
    {defining : Option String} (h : scope.Holds seen defining) (x : String) :
    (scope.get? x).isSome = decide (x ∈ seen) := by
  have hx := congrArg Option.isSome (h x)
  rw [Option.isSome_map] at hx
  by_cases hs : x ∈ seen <;> simp [hx, hs]

theorem SymbolScope.Holds.declare {scope : SymbolScope} {seen : List String}
    (h : scope.Holds seen none) (symbol : Symbol) :
    SymbolScope.Holds (scope.insert symbol.name { symbol with defined := false })
      (seen ++ [symbol.name]) (some symbol.name) := by
  intro x
  have hx := h x
  by_cases he : x = symbol.name
  · simp [he]
  · have hne : symbol.name ≠ x := fun hc => he hc.symm
    simp [he, hne, hx]

theorem SymbolScope.Holds.define {scope : SymbolScope} {seen : List String} {name : String}
    (hs : name ∈ seen) (h : scope.Holds seen (some name)) (symbol : Symbol) :
    SymbolScope.Holds (scope.insert name { symbol with defined := true }) seen none := by
  intro x
  have hx := h x
  by_cases he : x = name
  · simp [he, hs]
  · have hne : name ≠ x := fun hc => he hc.symm
    simp [he, hne, hx]

/-- Scope by scope, innermost first. Only the innermost can have a name that is not defined. -/
inductive Symbols.Hold : Symbols → List Layer → Option String → Prop
  | nil {defining : Option String} : Symbols.Hold [] [] defining
  | cons {scope : SymbolScope} {outer : Symbols} {layer : Layer} {layers : List Layer}
      {defining : Option String} :
      scope.Holds layer.seen defining → Symbols.Hold outer layers none →
      Symbols.Hold (scope :: outer) (layer :: layers) defining

/-- The open scopes are those around a place, and a definition around the place has declared its
name. Nothing else of the place matters. -/
def Symbols.Fits (ss : Symbols) (P : Place) : Prop :=
  ss.Hold P.layers P.defining ∧
    ∀ x, P.defining = some x → ∀ layer ∈ P.layers.head?, x ∈ layer.seen

namespace Symbols

variable {ss : Symbols} {P : Place}

theorem Hold.length_eq {layers : List Layer} {defining : Option String}
    (h : ss.Hold layers defining) : ss.length = layers.length := by
  induction h with
  | nil => rfl
  | cons _ _ ih => rw [List.length_cons, List.length_cons, ih]

theorem Hold.hops?_eq {layers : List Layer} {defining : Option String}
    (h : ss.Hold layers defining) (x : String) :
    ss.hops? x = layers.findIdx? fun layer => decide (x ∈ layer.seen) := by
  induction h with
  | nil => rfl
  | @cons scope outer layer layers defining hs _ ih =>
    have hx := hs.isSome_eq x
    rw [List.findIdx?_cons, ← hx, ← ih, hops?, hops?, resolve?]
    cases scope.get? x with
    | none => simp [Option.map_map, Function.comp_def]
    | some symbol => rfl

theorem Fits.hold (h : ss.Fits P) : ss.Hold P.layers P.defining := h.1

theorem Fits.length_eq (h : ss.Fits P) : ss.length = P.layers.length := h.hold.length_eq

theorem Fits.hops?_eq (h : ss.Fits P) (x : String) : ss.hops? x = P.distance? x :=
  h.hold.hops?_eq x

theorem Fits.isGlobal_eq (h : ss.Fits P) : ss.isGlobal = !P.isLocal := by
  obtain ⟨_, _, layers, _, _, _⟩ := P
  cases h.hold <;> rfl

theorem Fits.declares_eq (h : ss.Fits P) (x : String) :
    ss.declares x = decide (P.Declared 0 x) := by
  obtain ⟨_, _, layers, _, _, _⟩ := P
  cases h.hold with
  | nil => simp [declares, current?, Place.Declared]
  | cons hs _ => simp [declares, current?, Place.Declared, hs.isSome_eq x]

/-- A name that is declared but not defined is that of the definition around the place. -/
theorem Fits.current?_undefined_iff (h : ss.Fits P) (x : String) :
    (ss.current? x).map (·.defined) = some false ↔ P.isLocal ∧ P.defining = some x := by
  obtain ⟨_, _, layers, _, _, defining⟩ := P
  obtain ⟨hh, hd⟩ := h
  cases hh with
  | nil => simp [current?, Place.isLocal]
  | @cons scope outer layer layers _ hs _ =>
    rw [current?, hs x]
    by_cases hx : x ∈ layer.seen
    · simp [hx, Place.isLocal]
    · have hne : defining ≠ some x := fun he => hx (hd x he layer rfl)
      simp [hx, hne]

theorem fits_top (program : Nat) : Symbols.Fits [] (.top program) := ⟨.nil, nofun⟩

/-- Declaring a name leads to the front of its initial value. -/
theorem Fits.declare (hd : P.defining = none) (h : ss.Fits P) (symbol : Symbol) :
    (ss.declare symbol).Fits (P.initializer symbol.name) := by
  obtain ⟨_, _, layers, _, _, defining⟩ := P
  obtain rfl : defining = none := hd
  cases h.hold with
  | nil => exact ⟨.nil, by simp [Place.initializer, Place.after]⟩
  | cons hs hh => exact ⟨.cons (hs.declare symbol) hh, by simp [Place.initializer, Place.after]⟩

theorem Fits.define (hd : P.defining = none) {name : String} (h : ss.Fits (P.initializer name)) :
    (ss.define name).Fits (P.after [name]) := by
  obtain ⟨_, _, layers, _, _, defining⟩ := P
  obtain rfl : defining = none := hd
  cases layers with
  | nil =>
    cases h.hold
    exact ⟨.nil, nofun⟩
  | cons layer layers =>
    cases h.hold with
    | cons hs hh =>
      have hn : name ∈ layer.seen ++ [name] := List.mem_append_right _ (List.mem_singleton_self _)
      exact ⟨.cons (hs.define hn _) hh, nofun⟩

theorem Fits.enter (hd : P.defining = none) (h : ss.Fits P) (names : List String) :
    ss.enter.Fits (P.enter names) := by
  have hh := h.hold
  rw [hd] at hh
  refine ⟨.cons (fun x => ?_) hh, ?_⟩
  · simp
  · simp [Place.enter, hd]

theorem Fits.exit (hd : P.defining = none) {Q : Place} {layer : Layer}
    (hq : Q.layers = layer :: P.layers) (h : ss.Fits Q) : ss.exit.Fits P := by
  have hh := h.hold
  rw [hq] at hh
  cases hh with
  | cons _ ho =>
    refine ⟨?_, ?_⟩
    · rw [hd]
      exact ho
    · simp [hd]

end Symbols

end Treescript
