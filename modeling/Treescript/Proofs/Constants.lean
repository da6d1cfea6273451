import Treescript.Native
import Treescript.Operators

/-!
# Constants

Values that refer to nothing in a store. Literals are constants, and whatever operators and natives
compute is one.
-/

namespace Treescript

def Value.IsConstant : Value → Prop
  | .none | .bool _ | .int _ | .float _ | .text _ => True
  | .operation _ | .native _ | .type _ | .holder .. => False

theorem Value.isConstant_ofLiteral (l : Literal) : (Value.ofLiteral l).IsConstant := by
  cases l <;> trivial

namespace Operator

variable {token : Token} {store : Store} {left right v : Value}

theorem isConstant_of_prefixed (h : prefixed token right = .ok v) : v.IsConstant := by
  unfold prefixed at h
  split at h
  · obtain rfl := Except.ok.inj h
    trivial
  · split at h <;> cases h <;> trivial
  · cases h

theorem isConstant_of_add (h : add store left right = .ok v) : v.IsConstant := by
  unfold add at h
  split at h
  · obtain rfl := Except.ok.inj h
    trivial
  · obtain rfl := Except.ok.inj h
    trivial
  · obtain rfl := Except.ok.inj h
    trivial
  · split at h <;> cases h
    trivial

theorem isConstant_of_onIntegers {l r : Int64} (h : onIntegers token l r = .ok v) :
    v.IsConstant := by
  unfold onIntegers at h
  split at h <;> try split at h
  all_goals cases h
  all_goals trivial

theorem isConstant_of_onFloats {l r : Float} (h : onFloats token l r = .ok v) :
    v.IsConstant := by
  unfold onFloats at h
  split at h <;> cases h <;> trivial

theorem isConstant_of_between (h : between store token left right = .ok v) : v.IsConstant := by
  unfold between at h
  split at h
  · obtain rfl := Except.ok.inj h
    trivial
  · obtain rfl := Except.ok.inj h
    trivial
  · exact isConstant_of_add h
  · split at h
    · exact isConstant_of_onIntegers h
    · split at h
      · exact isConstant_of_onFloats h
      · cases h

theorem isConstant_of_counted (h : counted token right = .ok v) : v.IsConstant := by
  unfold counted at h
  split at h <;> cases h <;> trivial

end Operator

namespace Native

theorem isConstant_of_onNumber {n : Native} {f : Float → Float} {s : Signal} {v : Value}
    (h : onNumber n f s = .ok v) : v.IsConstant := by
  unfold onNumber at h
  split at h
  · split at h <;> cases h
    trivial
  · cases h

theorem isConstant_of_onText {n : Native} {f : String → Value} (hf : ∀ s, (f s).IsConstant)
    {s : Signal} {v : Value} (h : onText n f s = .ok v) : v.IsConstant := by
  unfold onText at h
  split at h <;> cases h
  exact hf _

theorem isConstant_of_apply {store : Store} {now : Float} {n : Native} {args : List Signal}
    {v : Value} (h : n.apply store now args = some (.ok v)) : v.IsConstant := by
  unfold apply at h
  split at h
  case h_1 | h_11 | h_12 => cases h; trivial
  case h_13 => cases h
  case h_7 | h_8 | h_9 | h_10 =>
    refine isConstant_of_onText ?_ (Option.some.inj h)
    exact fun _ => trivial
  all_goals exact isConstant_of_onNumber (Option.some.inj h)

end Native

end Treescript
