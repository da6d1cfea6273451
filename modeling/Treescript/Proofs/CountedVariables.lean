import Treescript.Proofs.Alterations
import Treescript.Proofs.DecodedPrograms
import Treescript.Proofs.FuelIndependence
import Treescript.Proofs.Spots

/-!
# Counted variables

Counting a variable that holds a number, or that is not there, is assigning it the sum of itself and
one. The numbers of hops are found for three nodes, the count, its target and the assignment in its
place, and are the same for all of them.
-/

namespace Treescript

/-- What a count adds: `1`, or `-1` for `--`. -/
def Token.countStep (operator : Token) : Int64 :=
  if operator.kind = .operator .decrement then -1 else 1

/-- A count written as an assignment of a sum. -/
def Expr.countedAsSum (operator plus one name : Token) (hops : Option Nat) : Expr :=
  .assign name (.binary (.variable name hops) plus (.literal one (.int operator.countStep))) hops

/-- What a variable holds that is the given number of hops away. -/
def Machine.held? (m : Machine) (name : String) (hops : Option Nat) : Option Value :=
  (m.target? hops).bind (m.store.scopes.get? · name)

theorem Machine.exists_of_held? {m : Machine} {x : String} {hops : Option Nat} {v : Value}
    (h : m.held? x hops = some v) :
    ∃ i, m.target? hops = some i ∧ m.store.scopes.get? i x = some v := by
  obtain ⟨i, hi, hv⟩ := Option.bind_eq_some_iff.1 h
  exact ⟨i, hi, hv⟩

/-- A number is counted by adding the step to it, and stays a number of its kind. -/
theorem Operator.counted_of_number (operator : Token) {plus : Token}
    (hplus : plus.kind = .operator .plus) (s : Store) {v : Value}
    (hv : v.kind = .integer ∨ v.kind = .float) :
    ∃ w, w.kind = v.kind ∧ Operator.counted operator v = .ok w ∧
      Operator.between s plus v (.int operator.countStep) = .ok w := by
  have hsum : Operator.between s plus v (.int operator.countStep) =
      Operator.add s v (.int operator.countStep) := by
    simp only [Operator.between, hplus]
  rw [hsum]
  cases v with
  | int n =>
    refine ⟨.int (n + operator.countStep), rfl, ?_, rfl⟩
    rw [Operator.counted, Token.countStep]
    split <;> rfl
  | float x =>
    refine ⟨.float (x + Float.ofInt operator.countStep.toInt), rfl, ?_, rfl⟩
    rw [Operator.counted, Token.countStep]
    split <;> rfl
  | type t => cases t <;> simp [Value.kind, TypeRef.kind] at hv
  | holder t id => cases t <;> simp [Value.kind, TypeRef.holderKind] at hv
  | _ => simp [Value.kind] at hv

theorem Operator.counted_of_other (operator : Token) {v : Value} (hint : v.kind ≠ .integer)
    (hfloat : v.kind ≠ .float) :
    Operator.counted operator v = .error (.counting operator.text v.kind) := by
  cases v with
  | int n => exact absurd rfl hint
  | float x => exact absurd rfl hfloat
  | _ => rfl

section

open Run.Settles (succ_iff bind_iff bind_error of_run)

variable {m : Machine} {name : Token} {hops : Option Nat} {v w : Value}

theorem Expr.variable_ends (h : m.held? name.text hops = some v) :
    (Job.expr (.variable name hops)).Ends m (.ok v) m := by
  have hrun : (Run.lookup name name.text hops).run m = (.ok v, m) := by
    rw [Machine.held?] at h
    rw [Run.lookup_run, h]
  exact succ_iff.1 (of_run hrun nofun)

theorem Expr.variable_ends_undefined (h : m.held? name.text hops = none) :
    (Job.expr (.variable name hops)).Ends m
      (.error (.failure ⟨name, .undefinedVariable name.text, none⟩)) m := by
  have hrun : (Run.lookup name name.text hops).run m =
      (.error (.failure ⟨name, .undefinedVariable name.text, none⟩), m) := by
    rw [Machine.held?] at h
    rw [Run.lookup_run, h]
  exact succ_iff.1 (of_run hrun nofun)

theorem Run.assign_settles {i : ScopeId} (hi : m.target? hops = some i)
    (hv : m.store.scopes.get? i name.text = some v) (w : Value) :
    Run.Settles (fun _ => Run.assign name hops w) m (.ok w)
      { m with store := m.store.define i name.text w } := by
  have hbinder : (m.target? hops).filter (fun i => (m.store.scopes.get? i name.text).isSome) =
      some i := by
    simp [hi, hv]
  have hrun : (Run.assign name hops w).run m =
      (.ok w, { m with store := m.store.define i name.text w }) := by
    rw [Run.assign_run, hbinder]
  exact of_run hrun nofun

/-- After an assignment the variable holds what has been assigned. -/
theorem Machine.held?_define {i : ScopeId} (hi : m.target? hops = some i)
    (hv : m.store.scopes.get? i name.text = some v) (w : Value) :
    { m with store := m.store.define i name.text w }.held? name.text hops = some w := by
  rw [Machine.held?, Machine.target?_define, hi, Option.bind_some]
  exact Scopes.get?_define_self _ (Scopes.lt_size_of_get?_eq_some _ hv) name.text w

/-- A variable that holds a number is counted by writing the number next to it. -/
theorem Expr.count_ends (operator : Token) {i : ScopeId} (hi : m.target? hops = some i)
    (hv : m.store.scopes.get? i name.text = some v) (hw : Operator.counted operator v = .ok w) :
    (Job.expr (.count operator (.variable name hops) name hops)).Ends m (.ok w)
      { m with store := m.store.define i name.text w } := by
  have hheld : m.held? name.text hops = some v := by rw [Machine.held?, hi, Option.bind_some, hv]
  have hcounted := Run.operator_settles operator (Operator.counted operator v) m
  rw [hw] at hcounted
  refine succ_iff.1 ((bind_iff (Expr.variable_ends hheld)).2 ?_)
  simp only [hw]
  exact (bind_iff hcounted).2 (Run.assign_settles hi hv w)

theorem Expr.sum_ends (operator : Token) {plus : Token} (one : Token) {i : ScopeId}
    (hi : m.target? hops = some i) (hv : m.store.scopes.get? i name.text = some v)
    (hw : Operator.between m.store plus v (.int operator.countStep) = .ok w) :
    (Job.expr (.countedAsSum operator plus one name hops)).Ends m (.ok w)
      { m with store := m.store.define i name.text w } := by
  have hheld : m.held? name.text hops = some v := by rw [Machine.held?, hi, Option.bind_some, hv]
  have hsum := @Expr.binary_ends m m _ _ plus m _ _ (Expr.variable_ends hheld)
    (Expr.literal_ends one (.int operator.countStep) m)
  simp only [Value.ofLiteral, hw] at hsum
  exact succ_iff.1 ((bind_iff hsum).2 (Run.assign_settles hi hv w))

theorem Expr.count_ends_other (operator : Token) (hheld : m.held? name.text hops = some v)
    (hint : v.kind ≠ .integer) (hfloat : v.kind ≠ .float) :
    (Job.expr (.count operator (.variable name hops) name hops)).Ends m
      (.error (.failure ⟨operator, .counting operator.text v.kind, none⟩)) m := by
  have hcounted := Run.operator_settles operator (Operator.counted operator v) m
  rw [Operator.counted_of_other operator hint hfloat] at hcounted
  refine succ_iff.1 ((bind_iff (Expr.variable_ends hheld)).2 ?_)
  simp only [Operator.counted_of_other operator hint hfloat]
  exact bind_error hcounted

theorem Expr.count_ends_undefined (operator : Token) (hheld : m.held? name.text hops = none) :
    (Job.expr (.count operator (.variable name hops) name hops)).Ends m
      (.error (.failure ⟨name, .undefinedVariable name.text, none⟩)) m :=
  succ_iff.1 (bind_error (Expr.variable_ends_undefined hheld))

theorem Expr.sum_ends_undefined (operator plus one : Token)
    (hheld : m.held? name.text hops = none) :
    (Job.expr (.countedAsSum operator plus one name hops)).Ends m
      (.error (.failure ⟨name, .undefinedVariable name.text, none⟩)) m :=
  succ_iff.1 (bind_error (Expr.binary_ends_left (Expr.variable_ends_undefined hheld)))

end

/-- A count in a decoded program is resolved to the same number of hops as its target, and as an
assignment and a variable would be that stand in its place. So on any machine it reads and writes
one binding. If that holds a number or is not there, the count does what assigning the sum does, and
the variable then has the new value, a number of the same kind. Anything else is not counted, and
the machine stays as it is. -/
theorem Expr.count_is_assigned_sum :
    (∀ (ds : List Document) (p : Program), Document.program ds = .ok p →
      ∀ operator target name hops, Node.expr (.count operator target name hops) ∈ p.nodes →
        (∃ S : Spot, p = S.fill (.count operator target name hops)) ∧
        ∀ S : Spot, p = S.fill (.count operator target name hops) →
          ∃ (S' : Spot) (D : Option Nat),
            p.resolve.program = S'.fill (.count operator (.variable name D) name D) ∧
            ∀ plus one, (S.fill (.countedAsSum operator plus one name none)).resolve.program =
              S'.fill (.countedAsSum operator plus one name D)) ∧
    ∀ (operator plus one name : Token) (D : Option Nat) (m : Machine),
      plus.kind = .operator .plus →
      let count := Job.expr (.count operator (.variable name D) name D)
      let sum := Job.expr (.countedAsSum operator plus one name D)
      ((∀ v, m.held? name.text D = some v → v.kind = .integer ∨ v.kind = .float) →
        ∀ r m', count.Ends m r m' ↔ sum.Ends m r m') ∧
      (m.held? name.text D = none →
        count.Ends m (.error (.failure ⟨name, .undefinedVariable name.text, none⟩)) m) ∧
      ∀ v, m.held? name.text D = some v →
        (v.kind = .integer ∨ v.kind = .float →
          ∃ i w, m.target? D = some i ∧ w.kind = v.kind ∧
            let m' := { m with store := m.store.define i name.text w }
            count.Ends m (.ok w) m' ∧ (Job.expr (.variable name D)).Ends m' (.ok w) m') ∧
        (v.kind ≠ .integer → v.kind ≠ .float →
          count.Ends m (.error (.failure ⟨operator, .counting operator.text v.kind, none⟩)) m) := by
  refine ⟨fun ds p hp operator target name hops hnode => ⟨Program.exists_spot hnode, ?_⟩,
    fun operator plus one name D m hplus => ⟨fun hnumber r m' => ?_, ?_, fun v hv => ⟨?_, ?_⟩⟩⟩
  · rintro S rfl
    obtain ⟨h, rfl⟩ : ∃ h, target = .variable name h := Document.program_counts hp _ hnode
    obtain ⟨S', Q, hS⟩ := S.resolve_fill
    exact ⟨S', Q.distance? name.text, hS _, fun plus one => hS _⟩
  · cases hheld : m.held? name.text D with
    | none =>
      exact (Expr.count_ends_undefined operator hheld).iff_of_same
        (Expr.sum_ends_undefined operator plus one hheld)
    | some v =>
      obtain ⟨i, hi, hiv⟩ := Machine.exists_of_held? hheld
      obtain ⟨w, -, hw, hsum⟩ := Operator.counted_of_number operator hplus m.store (hnumber v hheld)
      exact (Expr.count_ends operator hi hiv hw).iff_of_same
        (Expr.sum_ends operator one hi hiv hsum)
  · exact Expr.count_ends_undefined operator
  · intro hnumber
    obtain ⟨i, hi, hiv⟩ := Machine.exists_of_held? hv
    obtain ⟨w, hkind, hw, -⟩ := Operator.counted_of_number operator hplus m.store hnumber
    exact ⟨i, w, hi, hkind, Expr.count_ends operator hi hiv hw,
      Expr.variable_ends (Machine.held?_define hi hiv w)⟩
  · exact Expr.count_ends_other operator hv

/-- A block declares `x`, and a block inside it counts `x` up. -/
def countDocument : List Document :=
  [.mapping [("type", .text "Block"), ("statements", .list [
    .mapping [("type", .text "Def"), ("name", .text "x"),
      ("initial", .mapping [("type", .text "Literal"), ("value", .int 1)])],
    .mapping [("type", .text "Block"), ("statements", .list [
      .mapping [("type", .text "Print"), ("expression", .mapping [("type", .text "Count"),
        ("operator", .text "++"), ("name", .text "x")])]])]])]]

def countOfX (hops : Option Nat) : Expr :=
  let x : Token := ⟨.identifier, "x", 1, .null⟩
  .count ⟨.operator .increment, "++", 1, .null⟩ (.variable x hops) x hops

def countProgram (hops : Option Nat) : Program :=
  let bar : Token := ⟨.mark .bodyStart, "|", 1, .null⟩
  [.block bar [
    .define ⟨⟨.keyword .define, "def", 1, .null⟩, ⟨.identifier, "x", 1, .null⟩,
      some (.literal ⟨.int, "1", 1, .int 1⟩ (.int 1))⟩,
    .block bar [.print ⟨.keyword .log, "log", 1, .null⟩ (countOfX hops)]]]

theorem countProgram_decoded : Document.program countDocument = .ok (countProgram none) := by
  with_unfolding_all rfl

/-- The count and its target have one number of hops. Counted up, the greatest integer is the least
one, as the sum is. -/
theorem countProgram_counts :
    let m := Machine.start ⟨fun _ => 0, 0⟩ [("x", .int 9223372036854775807)]
    (∃ (S : Spot) (D : Option Nat), (countProgram none).resolve.program = S.fill (countOfX D)) ∧
    ∃ m', (Job.expr (countOfX none)).Ends m (.ok (.int (-9223372036854775808))) m' ∧
      m'.held? "x" none = some (.int (-9223372036854775808)) := by
  intro m
  constructor
  · have hnode : Node.expr (countOfX none) ∈ (countProgram none).nodes :=
      List.mem_of_getElem? (show (countProgram none).nodes[5]? = _ from rfl)
    obtain ⟨⟨S, hS⟩, hresolved⟩ :=
      Expr.count_is_assigned_sum.1 countDocument _ countProgram_decoded _ _ _ _ hnode
    obtain ⟨S', D, hD, -⟩ := hresolved S hS
    exact ⟨S', D, hD⟩
  · have hnumber : ∀ v, m.held? "x" none = some v → v.kind = .integer ∨ v.kind = .float := by
      intro v hv
      obtain rfl : Value.int 9223372036854775807 = v := Option.some.inj hv
      exact .inl rfl
    have hcount := (Expr.count_is_assigned_sum.2 ⟨.operator .increment, "++", 1, .null⟩
      ⟨.operator .plus, "+", 1, .null⟩ .blank ⟨.identifier, "x", 1, .null⟩ none m rfl).1 hnumber
    exact ⟨_, (hcount _ _).2 (@Job.Ends.of_outcome _ _ _ _ 4 rfl nofun), rfl⟩

end Treescript
