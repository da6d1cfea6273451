import Treescript.Proofs.WatchContracts

/-!
# Runs that only read

Many steps of evaluation look at the machine and leave it as it is: looking up a variable, applying
an operator, reading a property that is no method. Whatever relation between machines a proof is
about, such a step is a step of it as soon as the relation is reflexive.
-/

namespace Treescript

/-- From this machine the run ends in the same machine. -/
def Run.Reads {α : Type} (run : Run α) (m : Machine) : Prop := (run.run m).2 = m

namespace Run.Reads

variable {α β : Type} {run : Run α} {m : Machine}

theorem pure (a : α) : Run.Reads (Pure.pure a) m := rfl

theorem throw (stop : Stop) : Run.Reads (α := α) (MonadExcept.throw stop) m := rfl

theorem get : Run.Reads get m := rfl

theorem store : Run.Reads Run.store m := rfl

theorem bind {f : α → Run β} (h : Run.Reads run m) (hf : ∀ a, Run.Reads (f a) m) :
    Run.Reads (run >>= f) m := by
  rw [Run.Reads, run_bind_eq]
  rw [Run.Reads] at h
  generalize run.run m = end_ at h
  obtain ⟨stop | a, m'⟩ := end_
  · exact h
  · obtain rfl : m' = m := h
    exact hf a

/-- What has been found is known to be there. -/
theorem found_bind {a? : Option α} {f : α → Run β} (hf : ∀ a, a? = some a → Run.Reads (f a) m) :
    Run.Reads (Run.found a? >>= f) m := by
  cases a? with
  | none => rfl
  | some a =>
    rw [Run.Reads, run_bind_eq]
    exact hf a rfl

theorem found (a? : Option α) : Run.Reads (Run.found a?) m := by
  cases a? <;> rfl

theorem lookup (token : Token) (x : String) (hops : Option Nat) :
    Run.Reads (Run.lookup token x hops) m := by
  rw [Run.Reads, Run.lookup_run]
  cases (m.target? hops).bind (m.store.scopes.get? · x) <;> rfl

theorem operator (token : Token) (result : Except Cause Value) :
    Run.Reads (Run.operator token result) m := by
  cases result <;> rfl

theorem parent (fuel : Nat) (name : Token) :
    Run.Reads ((Expr.parent name).eval (fuel + 1)) m := by
  refine Reads.get.bind fun m' => ?_
  split
  · rfl
  · split <;> rfl

theorem global (fuel : Nat) (name : Token) :
    Run.Reads ((Expr.global name).eval (fuel + 1)) m := by
  refine Reads.get.bind fun m' => ?_
  split <;> rfl

theorem applied (n : Native) (time : Float) (args : List Value) :
    Run.Reads (do
      match ← Run.found (n.apply (← Run.store) time (args.map .value)) with
      | .ok value => return value
      | .error cause => Run.fail .blank cause : Run Value) m := by
  refine Reads.store.bind fun s => found_bind fun result _ => ?_
  cases result <;> rfl

/-- A property that is no method is only read. -/
theorem getProperty {of : TypeRef} {id : Nat} {name : Token}
    (hm : m.store.methodRead? of id name.text = none) :
    Run.Reads (Run.getProperty of id name) m := by
  rw [Run.Reads, Run.getProperty, run_bind_eq, Run.run_store]
  refine found_bind fun fields hfields => ?_
  cases hx : fields.get? name.text with
  | some v => rfl
  | none =>
    cases of with
    | object t =>
      refine found_bind fun type htype => ?_
      cases hmethod : type.methods.get? name.text with
      | none => rfl
      | some method =>
        refine found_bind fun c hc => ?_
        cases hm.symm.trans (Store.methodRead?_of_method hfields hx htype hmethod hc)
    | enum t =>
      refine found_bind fun type _ => ?_
      cases name.literal.integer?.bind fun n => type.elementName? n.toInt with
      | some element => rfl
      | none => cases type.ordinal? name.text <;> rfl
    | form t =>
      refine found_bind fun type _ => ?_
      cases type.members.get? name.text <;> rfl

end Run.Reads

end Treescript
