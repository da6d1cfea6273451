import Treescript.Proofs.MovedDocuments
import Treescript.Proofs.MovedResolution
import Treescript.Proofs.MovedRuns

/-!
# Lines are only locations

Documents that differ in lines only are read, resolved and run alike: whatever comes out of them
differs in rows only.
-/

namespace Treescript

/-- The same token on whatever row, if the row does not make up the place. -/
def Token.Shifted (t t' : Token) : Prop := t.Moved t' ∧ t'.isBlank = t.isBlank

theorem Token.Shifted.refl (t : Token) : t.Shifted t := ⟨.refl t, rfl⟩

theorem Token.faithful_shifted : Token.Faithful Token.Shifted :=
  ⟨fun _ _ h => h.1, fun _ _ h => h.2⟩

/-- A word is a place on any row. -/
theorem Token.Moved.shifted {t t' : Token} (h : t.Moved t') (htext : t.text ≠ "") :
    t.Shifted t' := by
  have hword : (t.text == "") = false := beq_eq_false_iff_ne.2 htext
  refine ⟨h, ?_⟩
  simp [Token.isBlank, h.text, hword]

theorem Document.covers_shifted : Document.Covers Token.Shifted :=
  ⟨fun _ _ h => h.1, fun _ _ h htext => h.shifted htext⟩

theorem Machine.shifted_refl (m : Machine) : m.Moved Token.Shifted m :=
  Machine.moved_self fun _ c _ => ⟨c.declaration.moved_refl Token.Shifted.refl, rfl, rfl⟩

theorem Document.lines_only_locate {ds ds' : List Document}
    (h : List.Forall₂ Document.SameButLines ds ds') :
    (∃ i, Document.program ds = .error i ∧ Document.program ds' = .error i) ∨
    ∃ p p', Document.program ds = .ok p ∧ Document.program ds' = .ok p' ∧
      Program.Moved Token.Shifted p p' ∧
      Program.Moved Token.Shifted p.resolve.program p'.resolve.program ∧
      List.Forall₂ Diagnostic.Moved p.resolve.diagnostics p'.resolve.diagnostics ∧
      ∀ (m : Machine) (fuel : Nat),
        Ending.Moved Token.Shifted (m.interpret fuel p.resolve.program).1
          (m.interpret fuel p'.resolve.program).1 ∧
        (m.interpret fuel p.resolve.program).2.Moved Token.Shifted
          (m.interpret fuel p'.resolve.program).2 := by
  rcases Document.program_alike Document.covers_shifted h with hrefused | ⟨p, p', hp, hp', hmoved⟩
  · exact .inl hrefused
  · obtain ⟨hresolved, hdiagnostics⟩ := hmoved.resolve fun _ _ ht => ht.1
    refine .inr ⟨p, p', hp, hp', hmoved, hresolved, hdiagnostics, fun m fuel => ?_⟩
    exact hresolved.interpret Token.faithful_shifted m.shifted_refl fuel

theorem Document.SameButLines.add_line (fields : List (String × Document)) (line : Document) :
    Document.SameButLines (.mapping fields) (.mapping (("line", line) :: fields)) := by
  refine .mapping fun key hkey => ?_
  rw [List.lookup_cons, beq_eq_false_iff_ne.2 hkey]
  cases Document.SameButLines.refl (.mapping fields) with
  | scalar h => exact h.elim
  | mapping h => exact h key hkey

/-- Prints a name that is bound nowhere. -/
def unboundPrint : List (String × Document) :=
  [("type", .text "Print"),
    ("expression", .mapping [("type", .text "Variable"), ("name", .text "x")])]

theorem unboundPrint_lines :
    ∃ p p' t t', Document.program [.mapping unboundPrint] = .ok p ∧
      Document.program [.mapping (("line", .int 5) :: unboundPrint)] = .ok p' ∧
      ((Machine.start ⟨fun _ => 0, 0⟩ []).interpret 9 p.resolve.program).1 =
        .aborted ⟨t, "Undefined variable 'x'.", none⟩ ∧
      ((Machine.start ⟨fun _ => 0, 0⟩ []).interpret 9 p'.resolve.program).1 =
        .aborted ⟨t', "Undefined variable 'x'.", none⟩ ∧
      t.Shifted t' ∧ t.row = 1 ∧ t'.row = 5 := by
  let printed (row : Int) : Program :=
    [.print ⟨.keyword .log, "log", row, .null⟩ (.variable ⟨.identifier, "x", row, .null⟩ none)]
  have hread : Document.program [.mapping unboundPrint] = .ok (printed 1) := by
    with_unfolding_all rfl
  have hread' : Document.program [.mapping (("line", .int 5) :: unboundPrint)] =
      .ok (printed 5) := by
    with_unfolding_all rfl
  rcases Document.lines_only_locate (.cons (.add_line unboundPrint (.int 5)) .nil) with
    ⟨i, hi, -⟩ | ⟨p, p', hp, hp', -, -, -, hrun⟩
  · cases hread.symm.trans hi
  · cases hread.symm.trans hp
    cases hread'.symm.trans hp'
    obtain ⟨hend, -⟩ := hrun (Machine.start ⟨fun _ => 0, 0⟩ []) 9
    refine ⟨_, _, ⟨.identifier, "x", 1, .null⟩, ⟨.identifier, "x", 5, .null⟩, hread, hread', rfl,
      rfl, ?_, rfl, rfl⟩
    cases hend with
    | aborted ht => exact ht

end Treescript
