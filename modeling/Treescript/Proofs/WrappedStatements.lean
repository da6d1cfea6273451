import Treescript.Proofs.Occurrences
import Treescript.Proofs.ResolvedPrograms
import Treescript.Proofs.RevisedRuns

/-!
# A block around a statement

Putting a block around a statement that declares nothing outside of itself adds a scope in which
nothing is ever bound. References from inside the statement to scopes outside it lead one scope
further, all others lead where they did, and no run can tell the difference.
-/

namespace Treescript

/-- Blocks may be put around statements, and all names stay. -/
def Licence.wrapping : Licence where
  renames names := names = Equiv.refl String
  fresh _ := False
  slack := 3
  renames_refl := rfl
  self_eq := by
    rintro names rfl
    rfl
  empty_eq := by
    rintro names rfl
    rfl
  self_used := not_false
  apart := by
    rintro names others x y rfl rfl - - heq
    exact heq
  slack_pos := by decide

/-- References to scopes outside of a statement lead one scope further. -/
def Relabelling.raising : Relabelling :=
  ⟨fun depth x hops => (x, hops.map fun h => if h < depth then h else h + 1), fun _ x => x⟩

def Stmt.raise (s : Stmt) : Stmt := s.relabel .raising 0

namespace Frame

variable {fs : List Frame}

theorem Plain.shift_inside_added (h : Plain fs) (depth hops : Nat) :
    shift (Frame.inside (added :: fs) depth) hops = if hops < depth then hops else hops + 1 := by
  induction depth generalizing hops with
  | zero => exact congrArg (· + 1) (h.shift_eq hops)
  | succ depth ih =>
    cases hops with
    | zero => rfl
    | succ hops =>
      rw [inside_succ, shift, ih]
      split <;> split <;> omega

theorem Plain.naming_inside_added (h : Plain fs) (depth hops : Nat) :
    naming (Frame.inside (added :: fs) depth) hops = Equiv.refl String := by
  induction depth generalizing hops with
  | zero => exact h.naming_eq hops
  | succ depth ih =>
    cases hops with
    | zero => rfl
    | succ hops => exact ih hops

theorem Plain.label_inside_added (h : Plain fs) (depth : Nat) :
    label (Frame.inside (added :: fs) depth) = Relabelling.raising.references depth := by
  funext x hops
  cases hops with
  | none => rfl
  | some hops =>
    simp only [label, namingOf, Option.elim_some, h.naming_inside_added, Option.map_some,
      h.shift_inside_added]
    rfl

theorem Plain.clear_inside_added (h : Plain fs) {depth : Nat} (hd : 0 < depth) :
    Clear (Frame.inside (added :: fs) depth) := by
  obtain ⟨depth, rfl⟩ := Nat.exists_eq_succ_of_ne_zero (Nat.ne_of_gt hd)
  refine ⟨rfl, fun names hn => ?_⟩
  rcases List.mem_append.1 hn with hn | hn
  · exact shared.inj (List.eq_of_mem_replicate hn)
  · rcases List.mem_cons.1 hn with heq | hn
    · cases heq
    · exact shared.inj (h _ hn)

end Frame

theorem Stmt.variables_eq_nil {s : Stmt} (h : s.declares = []) :
    s.variables = [] ∧ s.fixtures = [] := by
  have hcount : ∀ x, s.variables.count x + s.fixtures.count x = 0 := by
    intro x
    rw [← s.count_declares, h, List.count_nil]
  constructor
  · exact List.eq_nil_iff_forall_not_mem.2 fun x hx =>
      absurd (List.count_pos_iff.2 hx) (by have := hcount x; omega)
  · exact List.eq_nil_iff_forall_not_mem.2 fun x hx =>
      absurd (List.count_pos_iff.2 hx) (by have := hcount x; omega)

theorem Stmt.alters_raise {fs : List Frame} (h : Frame.Plain fs) {s : Stmt}
    (hdeclares : s.declares = [])
    (hparent : ∀ name P, ⟨.node (.expr (.parent name)), P⟩ ∈ s.visits (.top 0) → P.isLocal) :
    s.Alters Licence.wrapping (.added :: fs) s.raise := by
  refine Stmt.alters_relabel (P := .top 0) (fun _ _ => rfl) s ?_ ?_
  · rintro ⟨_, P⟩ hv e rfl
    refine ⟨?_, fun x hops _ => congrFun₂ (h.label_inside_added _).symm x hops⟩
    cases e with
    | parent name =>
      have hlocal : P.layers ≠ [] := by simpa [Place.isLocal] using hparent name P hv
      exact h.clear_inside_added (List.length_pos_iff.2 hlocal)
    | «variable» | assign | count => exact fun hfresh => hfresh.elim
    | _ => trivial
  · obtain ⟨hvariables, hfixtures⟩ := Stmt.variables_eq_nil hdeclares
    rw [hvariables, hfixtures]
    exact ⟨List.forall_mem_nil _, List.forall_mem_nil _⟩

theorem Relabelling.renumbers_raising : Relabelling.raising.Renumbers :=
  ⟨fun _ _ _ => rfl, fun _ _ => rfl⟩

theorem Stmt.sameText_raise (token : Token) (s : Stmt) :
    (Stmt.block token [s]).SameText (.block token [s.raise]) := by
  intro look P
  simp only [Stmt.annotate, Stmt.annotateList, Stmt.declaresList, Stmt.raise,
    Stmt.declares_relabel Relabelling.renumbers_raising,
    Stmt.annotate_relabel Relabelling.renumbers_raising]

theorem Outcome.Twins.eq {o o' : Outcome} (h : o.Twins .wrapping o') : o' = o := by
  cases h with
  | same => rfl
  | @renamed names token before globals hnames _ =>
    obtain rfl : names = Equiv.refl String := hnames
    rw [Token.renamed_eq_self Equiv.refl_apply]

/-- A program `P` without diagnostics has the statement `s` at some place, and `q` is, but for its
numbers of hops, the program with a block around that `s`. Then `q` has no diagnostics, and its
numbers of hops are those of `P`, except that references from inside `s` to scopes outside it lead
one scope further. Whatever a session has been through before, a run of either program that ends
has the outcome of every run of the other one with fuel enough. -/
theorem Program.wrapped_alike {P q : Program} {C : Context} {s : Stmt} {token : Token}
    (hP : P.resolve = ⟨C.fill s, []⟩) (hs : s ≠ .hole) (hdeclares : s.declares = [])
    (hparent : ∀ name Q, ⟨.node (.expr (.parent name)), Q⟩ ∈ s.visits (.top 0) → Q.isLocal)
    (hq : q.unnumbered = (C.fill (.block token [s])).unnumbered) :
    q.resolve = ⟨C.fill (.block token [s.raise]), []⟩ ∧
    ∀ (clock : Clock) (modules : List Module) (earlier : List (Nat × Program))
      (fuel fuel' : Nat),
      let m := (Machine.start clock (modules.flatMap Module.entries)).interpretAll earlier
      ((P.resolve.program.outcome fuel m).ending ≠ .outOfFuel → 3 * fuel ≤ fuel' →
        q.resolve.program.outcome fuel' m = P.resolve.program.outcome fuel m) ∧
      ((q.resolve.program.outcome fuel m).ending ≠ .outOfFuel → fuel ≤ fuel' →
        P.resolve.program.outcome fuel' m = q.resolve.program.outcome fuel m) := by
  have hrevises : Stmt.RevisesList Licence.wrapping [] (C.fill s)
      (C.fill (.block token [s.raise])) :=
    C.revises_fill (.wrapped (le_refl 3) hs hdeclares
      (Stmt.alters_raise Frame.Plain.nil.inside hdeclares hparent))
  have hresolved := Program.resolve_of_revises hrevises
    (Program.settled_visits (Program.resolve_of_resolved hP) (fun _ _ _ _ _ _ => not_false)
      fun _ _ _ => not_false)
  have hresolve : q.resolve = ⟨C.fill (.block token [s.raise]), []⟩ := by
    rw [← hresolved]
    refine Program.resolve_congr ((Program.annotated_eq_of_unnumbered hq).trans ?_)
    exact (C.annotated_fill (Stmt.sameText_raise token s) 0).symm
  refine ⟨hresolve, fun clock modules earlier fuel fuel' => ?_⟩
  have hintact := Machine.intact_interpretAll clock modules earlier
  rw [hP, hresolve]
  refine ⟨fun hend hle => ?_, fun hend hle => ?_⟩
  · have hcovers : Side.first.Covers Licence.wrapping.slack fuel fuel' := hle
    rcases Program.outcome_of_revises hcovers hintact hrevises with hspent | htwins
    · exact absurd hspent hend
    · exact htwins.eq
  · have hcovers : Side.second.Covers Licence.wrapping.slack fuel' fuel := hle
    rcases Program.outcome_of_revises hcovers hintact hrevises with hspent | htwins
    · exact absurd hspent hend
    · exact htwins.eq.symm

/-- A block that declares `x` and has a gap after that. -/
def afterX : Context :=
  ⟨[], [.block .blank [.define ⟨.blank, ⟨.identifier, "x", 1, .null⟩,
    some (.literal .blank (.int 7))⟩] []], []⟩

def printX (hops : Option Nat) : Stmt :=
  .print .blank (.variable ⟨.identifier, "x", 2, .null⟩ hops)

theorem printX_wrapped :
    (afterX.fill (.block .blank [printX none])).resolve =
      ⟨afterX.fill (.block .blank [printX (some 1)]), []⟩ ∧
    (afterX.fill (.block .blank [printX (some 1)])).outcome 30 (.start ⟨fun _ => 0, 0⟩ []) =
      (afterX.fill (printX (some 0))).outcome 10 (.start ⟨fun _ => 0, 0⟩ []) ∧
    ((afterX.fill (printX (some 0))).outcome 10 (.start ⟨fun _ => 0, 0⟩ [])).ending =
      .finished := by
  have hresolved : (afterX.fill (printX none)).resolve = ⟨afterX.fill (printX (some 0)), []⟩ := rfl
  have hparent : ∀ name Q, ⟨.node (.expr (.parent name)), Q⟩ ∈ (printX (some 0)).visits (.top 0) →
      Q.isLocal := by
    simp [printX, Stmt.visits, Expr.visits, Expr.parts]
  have hq : (afterX.fill (.block .blank [printX none])).unnumbered =
      (afterX.fill (.block .blank [printX (some 0)])).unnumbered := rfl
  obtain ⟨hresolve, hruns⟩ := Program.wrapped_alike hresolved nofun rfl hparent hq
  have hfinished : ((afterX.fill (printX (some 0))).outcome 10
      (.start ⟨fun _ => 0, 0⟩ [])).ending = .finished := rfl
  have hrun := (hruns ⟨fun _ => 0, 0⟩ [] [] 10 30).1
  rw [hresolve, hresolved] at hrun
  refine ⟨hresolve, hrun (fun hspent => ?_) (by decide), hfinished⟩
  cases hfinished.symm.trans hspent

end Treescript
