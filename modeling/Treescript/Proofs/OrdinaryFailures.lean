import Treescript.Native
import Treescript.Operators
import Treescript.Proofs.ProperTrees

/-!
# Ordinary failures

Some failures can only come from trees that no document gives: an operator that is in no table, an
arm outside a conditional. All others are ordinary. Operators out of the tables and natives that
have their argument fail in ordinary ways only, and ordinary failures have messages of their own.
-/

namespace Treescript

def Cause.Ordinary : Cause → Prop
  | .unknownUnary .. | .unknownBinary .. | .strayArm | .note _ => False
  | .nativeNumber native _ | .nativeText native _ => ∃ n : Native, native = n.name
  | _ => True

namespace Operator

theorem ordinary_of_prefixed {token : Token} (ht : token.IsIn unary?) {right : Value}
    {cause : Cause}
    (h : prefixed token right = .error cause) : cause.Ordinary := by
  obtain ⟨o, ho, hkind⟩ := ht
  have hcases : o = .not ∨ o = .minus := by
    unfold unary? at ho
    split at ho <;> simp_all
  unfold prefixed at h
  rcases hcases with rfl | rfl
  · simp only [hkind] at h
    cases h
  · simp only [hkind] at h
    split at h <;> cases h
    trivial

/-- The operators between two operands that numbers are asked for. -/
def isArithmetic : Operator → Bool
  | minus | times | divide | greater | less | greaterEqual | lessEqual => true
  | _ => false

theorem binary?_cases {word : String} {o : Operator} (h : binary? word = some o) :
    o = equal ∨ o = notEqual ∨ o = plus ∨ o.isArithmetic = true := by
  unfold binary? at h
  split at h <;> cases h <;> decide

variable {token : Token} {o : Operator} {cause : Cause}

theorem ordinary_of_add {store : Store} {left right : Value}
    (h : add store left right = .error cause) : cause.Ordinary := by
  unfold add at h
  split at h
  · cases h
  · cases h
  · cases h
  · split at h <;> cases h
    trivial

theorem ordinary_of_onIntegers (hkind : token.kind = .operator o) (ho : o.isArithmetic = true)
    {l r : Int64} (h : onIntegers token l r = .error cause) : cause.Ordinary := by
  unfold onIntegers at h
  simp only [hkind] at h
  cases o with
  | divide =>
    dsimp only at h
    split at h <;> cases h
    trivial
  | minus | times | greater | less | greaterEqual | lessEqual => cases h
  | _ => cases ho

theorem ordinary_of_onFloats (hkind : token.kind = .operator o) (ho : o.isArithmetic = true)
    {l r : Float} (h : onFloats token l r = .error cause) : cause.Ordinary := by
  unfold onFloats at h
  simp only [hkind] at h
  cases o with
  | minus | times | divide | greater | less | greaterEqual | lessEqual => cases h
  | _ => cases ho

theorem ordinary_of_between (ht : token.IsIn binary?) {store : Store} {left right : Value}
    (h : between store token left right = .error cause) : cause.Ordinary := by
  obtain ⟨o, ho, hkind⟩ := ht
  unfold between at h
  split at h
  · cases h
  · cases h
  · exact ordinary_of_add h
  · next hequal hnotEqual hplus =>
    have harith : o.isArithmetic = true := by
      rcases binary?_cases ho with rfl | rfl | rfl | harith
      · exact absurd hkind hequal
      · exact absurd hkind hnotEqual
      · exact absurd hkind hplus
      · exact harith
    split at h
    · exact ordinary_of_onIntegers hkind harith h
    · split at h
      · exact ordinary_of_onFloats hkind harith h
      · cases h
        trivial

theorem ordinary_of_counted {token : Token} {v : Value} {cause : Cause}
    (h : counted token v = .error cause) : cause.Ordinary := by
  cases v <;> cases h <;> trivial

end Operator

namespace Native

theorem ordinary_of_onNumber {n : Native} {f : Float → Float} {a : Signal} {cause : Cause}
    (h : onNumber n f a = .error cause) : cause.Ordinary := by
  unfold onNumber at h
  split at h
  · split at h <;> cases h
    exact ⟨n, rfl⟩
  · cases h
    exact ⟨n, rfl⟩

theorem ordinary_of_onText {n : Native} {f : String → Value} {a : Signal} {cause : Cause}
    (h : onText n f a = .error cause) : cause.Ordinary := by
  unfold onText at h
  split at h <;> cases h
  exact ⟨n, rfl⟩

theorem ordinary_of_apply {n : Native} {store : Store} {time : Float} {args : List Signal}
    {cause : Cause} (h : n.apply store time args = some (.error cause)) : cause.Ordinary := by
  unfold apply at h
  split at h
  case h_1 | h_11 | h_12 | h_13 => cases h
  case h_7 | h_8 | h_9 | h_10 => exact ordinary_of_onText (Option.some.inj h)
  all_goals exact ordinary_of_onNumber (Option.some.inj h)

theorem isSome_apply {n : Native} (store : Store) (time : Float) {args : List Signal}
    (h : args.length = n.arity) : (n.apply store time args).isSome := by
  cases args with
  | nil => cases n <;> first | rfl | cases h
  | cons a args => cases n <;> rfl

end Native

/-- The text begins with a word. -/
def Opens (word text : String) : Prop := ∃ rest, text = word ++ rest

namespace Opens

variable {word other text : String}

theorem refl (word : String) : Opens word word := ⟨"", String.append_empty.symm⟩

theorem append (h : Opens word text) (more : String) : Opens word (text ++ more) := by
  obtain ⟨rest, rfl⟩ := h
  exact ⟨rest ++ more, String.append_assoc ..⟩

theorem isPrefix (h : Opens word text) : word.toList <+: text.toList := by
  obtain ⟨rest, rfl⟩ := h
  rw [String.toList_append]
  exact List.prefix_append _ _

end Opens

namespace Cause

/-- How the messages begin that are about the tree and not about the program. -/
def internalWords : List String := ["unknown operator: ", "cannot evaluate ", "cannot execute "]

/-- How all other messages begin. -/
def ordinaryWords : List String :=
  ["Undefined variable '", "Undefined global '", "No enclosing scope to read '",
    "Operand must be a number, got ", "Operands must be numbers, got ",
    "Operands must be numbers or strings, got ", "Division by zero.", "Operand of ",
    "Can only call operations and types, got ", "Expected ",
    "Only instances, samples and tastes have properties, got ",
    "Only instances, samples and tastes have fields, got ", "Undefined ",
    "clock", "abs", "ceil", "floor", "round", "sqrt", "upper", "lower", "trim", "len", "type", "str"]

theorem native_mem_ordinaryWords (n : Native) : n.name ∈ ordinaryWords := by
  cases n <;> decide

theorem Ordinary.exists_opens {cause : Cause} (h : cause.Ordinary) :
    ∃ word ∈ ordinaryWords, Opens word cause.message := by
  cases cause with
  | unknownUnary | unknownBinary | strayArm | note => exact h.elim
  | nativeNumber _ kind | nativeText _ kind =>
    obtain ⟨n, rfl⟩ := h
    exact ⟨n.name, native_mem_ordinaryWords n, ((Opens.refl _).append _).append _⟩
  | undefinedVariable | undefinedGlobal | noEnclosingScope | negation | notCallable | noProperties
  | noFields => exact ⟨_, by decide, ((Opens.refl _).append _).append _⟩
  | addition | counting | arity | undefinedProperty =>
    exact ⟨_, by decide, ((((Opens.refl _).append _).append _).append _).append _⟩
  | arithmetic =>
    exact ⟨_, by decide, ((((((Opens.refl _).append _).append _).append _).append _).append _).append _⟩
  | divisionByZero => exact ⟨_, by decide, Opens.refl _⟩

/-- No ordinary message can be taken for one that is about the tree. -/
theorem Ordinary.not_opens {cause : Cause} (h : cause.Ordinary) {word : String}
    (hword : word ∈ internalWords) : ¬Opens word cause.message := by
  have hapart : ∀ w ∈ ordinaryWords, ∀ u ∈ internalWords,
      ¬w.toList <+: u.toList ∧ ¬u.toList <+: w.toList := by decide +kernel
  -- of two openings of one text the shorter opens the longer, and none of these do
  intro hopens
  obtain ⟨w, hw, hmessage⟩ := h.exists_opens
  obtain ⟨hwu, huw⟩ := hapart w hw word hword
  rcases List.prefix_or_prefix_of_prefix hmessage.isPrefix hopens.isPrefix with hle | hle
  · exact hwu hle
  · exact huw hle

end Cause

end Treescript
