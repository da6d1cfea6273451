import Treescript.Proofs.FuelIndependence

/-!
# Wrapping arithmetic

An expression of integers is evaluated in signed 64-bit words. `Expr.reckoned` is the same
computation over the integers, with every result reduced by a function. If that function takes the
64-bit residue, the computation gives what evaluation gives, up to the first division by zero. If it
changes nothing, the computation is exact, and evaluation gives its residue unless there is a
division.
-/

namespace Treescript

/-- The residue in the signed 64-bit range. -/
def residue (n : Int) : Int := n.bmod 18446744073709551616

/-- What an operator makes of two integers. A quotient is truncated toward zero. -/
def Operator.ofIntegers? : Operator → Int → Int → Option Int
  | plus, a, b => some (a + b)
  | minus, a, b => some (a - b)
  | times, a, b => some (a * b)
  | divide, a, b => if b = 0 then none else some (a.tdiv b)
  | _, _, _ => none

def TokenKind.operator? : TokenKind → Option Operator
  | .operator f => some f
  | _ => none

namespace Expr

/-- Integer literals, groups, `-` in front of an operand, and `+`, `-`, `*` and `/` between two. -/
inductive Arithmetic : Expr → Prop
  | literal (token : Token) {value : Literal} {n : Int64} (h : value.integer? = some n) :
    Arithmetic (.literal token value)
  | group (token : Token) {inner : Expr} (h : Arithmetic inner) : Arithmetic (.group token inner)
  | negation {op : Token} (hop : op.kind = .operator .minus) {right : Expr}
    (h : Arithmetic right) : Arithmetic (.unary op right)
  | binary {left right : Expr} (hleft : Arithmetic left) {op : Token} {f : Operator}
    (hop : op.kind = .operator f) (hf : f ∈ [.plus, .minus, .times, .divide])
    (hright : Arithmetic right) : Arithmetic (.binary left op right)

/-- The value of an expression over the integers, where `reduce` is applied to every result. -/
def reckoned (reduce : Int → Int) : Expr → Option Int
  | .literal _ value => value.integer?.map Int64.toInt
  | .group _ inner => inner.reckoned reduce
  | .unary op right => do
    let n ← right.reckoned reduce
    if op.kind = .operator .minus then return reduce (-n) else none
  | .binary left op right => do
    let a ← left.reckoned reduce
    let b ← right.reckoned reduce
    let f ← op.kind.operator?
    (f.ofIntegers? a b).map reduce
  | _ => none

/-- The divisions in an expression in the order in which they are carried out, each as its operator
and its divisor. -/
def divisions : Expr → List (Token × Expr)
  | .group _ inner => inner.divisions
  | .unary _ right => right.divisions
  | .binary left op right =>
    left.divisions ++ right.divisions ++
      if op.kind = .operator .divide then [(op, right)] else []
  | _ => []

/-- The first division that is by zero. -/
def firstByZero? (e : Expr) : Option (Token × Expr) :=
  e.divisions.find? fun d => d.2.reckoned residue = some 0

end Expr

theorem residue_toInt (n : Int64) : residue n.toInt = n.toInt := n.toInt_bmod

theorem Operator.prefixed_int {op : Token} (hop : op.kind = .operator .minus) (n : Int64) :
    Operator.prefixed op (.int n) = .ok (.int (-n)) := by
  rw [Operator.prefixed, hop]

/-- An operator on words gives the residue of what it gives on integers. -/
theorem Operator.between_ints {op : Token} {f : Operator} (hop : op.kind = .operator f)
    (hf : f ∈ [.plus, .minus, .times, .divide]) (s : Store) {a b : Int64} {n : Int}
    (hn : f.ofIntegers? a.toInt b.toInt = some n) :
    ∃ c : Int64, Operator.between s op (.int a) (.int b) = .ok (.int c) ∧ c.toInt = residue n := by
  rw [Operator.between, hop]
  simp only [List.mem_cons, List.not_mem_nil, or_false] at hf
  rcases hf with rfl | rfl | rfl | rfl
  · obtain rfl := Option.some.inj hn
    exact ⟨a + b, rfl, a.toInt_add b⟩
  · obtain rfl := Option.some.inj hn
    refine ⟨a - b, ?_, a.toInt_sub b⟩
    simp only [Operator.onIntegers, hop]
  · obtain rfl := Option.some.inj hn
    refine ⟨a * b, ?_, a.toInt_mul b⟩
    simp only [Operator.onIntegers, hop]
  · rw [Operator.ofIntegers?] at hn
    split at hn
    · cases hn
    · next hb =>
      obtain rfl := Option.some.inj hn
      refine ⟨a / b, ?_, a.toInt_div b⟩
      have hb' : b ≠ 0 := by
        rintro rfl
        exact hb rfl
      simp only [Operator.onIntegers, hop, if_neg hb']

theorem Operator.between_by_zero {op : Token} (hop : op.kind = .operator .divide) (s : Store)
    (a : Int64) : Operator.between s op (.int a) (.int 0) = .error .divisionByZero := by
  simp only [Operator.between, hop, Operator.onIntegers, if_true]

theorem Operator.ofIntegers?_eq_none {f : Operator} (hf : f ∈ [.plus, .minus, .times, .divide])
    {a b : Int} : f.ofIntegers? a b = none ↔ f = .divide ∧ b = 0 := by
  simp only [List.mem_cons, List.not_mem_nil, or_false] at hf
  rcases hf with rfl | rfl | rfl | rfl <;> simp [Operator.ofIntegers?]

theorem Expr.reckoned_binary {op : Token} {f : Operator} (hop : op.kind = .operator f)
    (reduce : Int → Int) (left right : Expr) :
    (Expr.binary left op right).reckoned reduce =
      (left.reckoned reduce).bind fun a => (right.reckoned reduce).bind fun b =>
        (f.ofIntegers? a b).map reduce := by
  rw [Expr.reckoned, hop]
  rfl

theorem Expr.firstByZero?_eq (left right : Expr) (op : Token) :
    (Expr.binary left op right).firstByZero? = (left.firstByZero?.or right.firstByZero?).or
      (if op.kind = .operator .divide ∧ right.reckoned residue = some 0 then some (op, right)
      else none) := by
  rw [Expr.firstByZero?, Expr.divisions, List.find?_append, List.find?_append]
  by_cases hdivide : op.kind = .operator .divide
  · by_cases hzero : right.reckoned residue = some 0
    · simp [hdivide, hzero, Expr.firstByZero?]
    · simp [hdivide, hzero, Expr.firstByZero?]
  · simp [hdivide, Expr.firstByZero?]

/-- If neither operand has a division by zero, the operator itself may be one. -/
theorem Expr.firstByZero?_binary {left right : Expr} (hleft : left.firstByZero? = none)
    (hright : right.firstByZero? = none) (op : Token) :
    (Expr.binary left op right).firstByZero? =
      if op.kind = .operator .divide ∧ right.reckoned residue = some 0 then some (op, right)
      else none := by
  rw [Expr.firstByZero?_eq, hleft, hright, Option.none_or, Option.none_or]

/-- Either no division is by zero, and evaluation gives what is reckoned in residues, or one is, and
evaluation fails at the first of them. -/
theorem Expr.Arithmetic.ends {e : Expr} (he : e.Arithmetic) (m : Machine) :
    (∃ n : Int64, e.firstByZero? = none ∧ e.reckoned residue = some n.toInt ∧
      (Job.expr e).Ends m (.ok (.int n)) m) ∨
    ∃ d, e.firstByZero? = some d ∧ e.reckoned residue = none ∧
      (Job.expr e).Ends m (.error (.failure ⟨d.1, .divisionByZero, none⟩)) m := by
  induction he with
  | @literal token value n h =>
    have hvalue : Value.ofLiteral value = .int n := by
      cases value <;> cases h <;> rfl
    have hends := Expr.literal_ends token value m
    rw [hvalue] at hends
    exact .inl ⟨n, rfl, by rw [Expr.reckoned, h, Option.map_some], hends⟩
  | group token _ ih =>
    rcases ih with ⟨n, hnone, hn, hends⟩ | ⟨d, hd, hnone, hends⟩
    · exact .inl ⟨n, hnone, hn, Expr.group_ends hends⟩
    · exact .inr ⟨d, hd, hnone, Expr.group_ends hends⟩
  | @negation op hop right _ ih =>
    rcases ih with ⟨n, hnone, hn, hends⟩ | ⟨d, hd, hnone, hends⟩
    · have hunary := @Expr.unary_ends m m op right _ hends
      rw [Operator.prefixed_int hop] at hunary
      refine .inl ⟨-n, hnone, ?_, hunary⟩
      rw [Expr.reckoned, hn, Option.bind_eq_bind, Option.bind_some, if_pos hop, n.toInt_neg]
      rfl
    · exact .inr ⟨d, hd, by rw [Expr.reckoned, hnone]; rfl, Expr.unary_ends_error hends⟩
  | @binary left right _ op f hop hf _ ihl ihr =>
    rcases ihl with ⟨a, hleft, ha, hendsl⟩ | ⟨d, hd, hnone, hends⟩
    · rcases ihr with ⟨b, hright, hb, hendsr⟩ | ⟨d, hd, hnone, hends⟩
      · have hbinary := @Expr.binary_ends m m left right op m _ _ hendsl hendsr
        have hreckoned := Expr.reckoned_binary hop residue left right
        rw [ha, hb, Option.bind_some, Option.bind_some] at hreckoned
        cases hn : f.ofIntegers? a.toInt b.toInt with
        | some n =>
          obtain ⟨c, hc, hcn⟩ := Operator.between_ints hop hf m.store hn
          rw [hc] at hbinary
          refine .inl ⟨c, ?_, by rw [hreckoned, hn, Option.map_some, hcn], hbinary⟩
          rw [Expr.firstByZero?_binary hleft hright, if_neg]
          rintro ⟨hdivide, hzero⟩
          obtain rfl : f = .divide := by simpa [hop] using hdivide
          rw [hb] at hzero
          rw [(Operator.ofIntegers?_eq_none hf).2 ⟨rfl, Option.some.inj hzero⟩] at hn
          cases hn
        | none =>
          obtain ⟨rfl, hzero⟩ := (Operator.ofIntegers?_eq_none hf).1 hn
          obtain rfl : b = 0 := Int64.toInt_inj.1 hzero
          rw [Operator.between_by_zero hop] at hbinary
          refine .inr ⟨(op, right), ?_, by rw [hreckoned, hn, Option.map_none], hbinary⟩
          rw [Expr.firstByZero?_binary hleft hright, if_pos ⟨hop, hb⟩]
      · refine .inr ⟨d, ?_, ?_, Expr.binary_ends_right hendsl hends⟩
        · simp [Expr.firstByZero?_eq, hleft, hd]
        · simp [Expr.reckoned_binary hop, hnone]
    · refine .inr ⟨d, ?_, ?_, Expr.binary_ends_left hends⟩
      · simp [Expr.firstByZero?_eq, hd]
      · simp [Expr.reckoned_binary hop, hnone]

/-- Residues of sums, differences and products are those of the residues. -/
theorem Operator.residue_ofIntegers? {f : Operator} (hf : f ∈ [.plus, .minus, .times, .divide])
    (hdivide : f ≠ .divide) (a b : Int) :
    ∃ x, f.ofIntegers? a b = some x ∧
      (f.ofIntegers? (residue a) (residue b)).map residue = some (residue x) := by
  simp only [List.mem_cons, List.not_mem_nil, or_false] at hf
  rcases hf with rfl | rfl | rfl | rfl
  · refine ⟨a + b, rfl, congrArg some ?_⟩
    rw [residue, residue, residue, Int.bmod_add_bmod, Int.add_bmod_bmod, residue]
  · refine ⟨a - b, rfl, congrArg some ?_⟩
    rw [residue, residue, residue, Int.bmod_sub_bmod, Int.sub_bmod_bmod, residue]
  · refine ⟨a * b, rfl, congrArg some ?_⟩
    rw [residue, residue, residue, Int.bmod_mul_bmod, Int.mul_bmod_bmod, residue]
  · exact absurd rfl hdivide

/-- Without a division, it is enough to take the residue in the end. -/
theorem Expr.Arithmetic.reckoned_exact {e : Expr} (he : e.Arithmetic) (hdiv : e.divisions = []) :
    ∃ x, e.reckoned id = some x ∧ e.reckoned residue = some (residue x) := by
  induction he with
  | @literal token value n h =>
    refine ⟨n.toInt, ?_, ?_⟩
    · rw [Expr.reckoned, h, Option.map_some]
    · rw [Expr.reckoned, h, Option.map_some, residue_toInt]
  | group token _ ih => exact ih hdiv
  | @negation op hop right _ ih =>
    obtain ⟨x, hx, hres⟩ := ih hdiv
    refine ⟨-x, ?_, ?_⟩
    · simp [Expr.reckoned, hx, hop]
    · simp [Expr.reckoned, hres, hop, residue, Int.bmod_neg_bmod]
  | @binary left right _ op f hop hf _ ihl ihr =>
    rw [Expr.divisions, List.append_eq_nil_iff, List.append_eq_nil_iff] at hdiv
    obtain ⟨⟨hleft, hright⟩, hown⟩ := hdiv
    obtain ⟨a, ha, hra⟩ := ihl hleft
    obtain ⟨b, hb, hrb⟩ := ihr hright
    have hdivide : f ≠ .divide := by
      rintro rfl
      simp [hop] at hown
    obtain ⟨x, hx, hres⟩ := Operator.residue_ofIntegers? hf hdivide a b
    refine ⟨x, ?_, ?_⟩
    · rw [Expr.reckoned_binary hop, ha, hb, Option.bind_some, Option.bind_some, hx, Option.map_id]
      rfl
    · rw [Expr.reckoned_binary hop, hra, hrb, Option.bind_some, Option.bind_some, hres]

/-- An expression of integers is evaluated in 64-bit residues. It fails exactly if it has a division
whose divisor is zero, at the operator of the first one that is carried out; if it has no division
at all, its value is the residue of its exact value. The machine stays as it is. -/
theorem Expr.arithmetic_wraps (e : Expr) (he : e.Arithmetic) (m : Machine) :
    ((∃ n : Int64, e.reckoned residue = some n.toInt ∧ (Job.expr e).Ends m (.ok (.int n)) m) ∨
      ∃ d, e.divisions.find? (fun d => d.2.reckoned residue = some 0) = some d ∧
        (Job.expr e).Ends m (.error (.failure ⟨d.1, .divisionByZero, none⟩)) m) ∧
    ((∃ stop m', (Job.expr e).Ends m (.error stop) m') ↔
      ∃ d ∈ e.divisions, d.2.reckoned residue = some 0) ∧
    (e.divisions = [] → ∃ (x : Int) (n : Int64), e.reckoned id = some x ∧ n.toInt = residue x ∧
      (Job.expr e).Ends m (.ok (.int n)) m) ∧
    Cause.divisionByZero.message = "Division by zero." := by
  refine ⟨?_, ?_, fun hdiv => ?_, rfl⟩
  · rcases he.ends m with ⟨n, -, hn, hends⟩ | ⟨d, hd, -, hends⟩
    · exact .inl ⟨n, hn, hends⟩
    · exact .inr ⟨d, hd, hends⟩
  · have hfind : e.firstByZero? ≠ none ↔ ∃ d ∈ e.divisions, d.2.reckoned residue = some 0 := by
      simp [Expr.firstByZero?]
    rw [← hfind]
    rcases he.ends m with ⟨n, hnone, -, hends⟩ | ⟨d, hd, -, hends⟩
    · constructor
      · rintro ⟨stop, m', hstop⟩
        cases (Run.Settles.unique hends hstop).1
      · exact fun h => absurd hnone h
    · exact ⟨fun _ => by rw [hd]; exact nofun, fun _ => ⟨_, m, hends⟩⟩
  · obtain ⟨x, hx, hres⟩ := he.reckoned_exact hdiv
    rcases he.ends m with ⟨n, -, hn, hends⟩ | ⟨d, -, hnone, -⟩
    · rw [hres] at hn
      exact ⟨x, n, hx, (Option.some.inj hn).symm, hends⟩
    · rw [hres] at hnone
      cases hnone

def quotient (left : Int64) (row : Int) (right : Int64) : Expr :=
  .binary (.literal .blank (.int left)) ⟨.operator .divide, "/", row, .null⟩
    (.literal .blank (.int right))

/-- The least integer divided by `-1` is itself. Of two divisions by zero the first one counts. -/
theorem quotients_wrap :
    let m := Machine.start ⟨fun _ => 0, 0⟩ []
    (Job.expr (quotient (-9223372036854775808) 1 (-1))).Ends m
      (.ok (.int (-9223372036854775808))) m ∧
    (Job.expr (.binary (quotient 1 2 0) ⟨.operator .times, "*", 3, .null⟩ (quotient 1 4 0))).Ends m
      (.error (.failure ⟨⟨.operator .divide, "/", 2, .null⟩, .divisionByZero, none⟩)) m := by
  intro m
  have hquotient : ∀ a row b, (quotient a row b).Arithmetic := fun a row b =>
    .binary (.literal _ rfl) rfl (by decide) (.literal _ rfl)
  constructor
  · rcases (Expr.arithmetic_wraps _ (hquotient (-9223372036854775808) 1 (-1)) m).1 with
      ⟨n, hn, hends⟩ | ⟨d, hd, -⟩
    · obtain rfl : n = -9223372036854775808 := by
        apply Int64.toInt_inj.1
        rw [← Option.some_inj, ← hn]
        decide
      exact hends
    · obtain rfl := List.mem_singleton.1 (List.mem_of_find?_eq_some hd)
      exact absurd (List.find?_some hd) (by decide)
  · have hproduct := Expr.Arithmetic.binary (hquotient 1 2 0)
      (rfl : Token.kind ⟨.operator .times, "*", 3, .null⟩ = .operator .times) (by decide)
      (hquotient 1 4 0)
    rcases (Expr.arithmetic_wraps _ hproduct m).1 with ⟨n, hn, -⟩ | ⟨d, hd, hends⟩
    · cases hn
    · cases hd
      exact hends

end Treescript
