import Treescript.Proofs.Places

/-!
# Declared names are visited

Whatever a part of a text declares in the scope it stands in is visited as a declaration, so that
what holds of all visits holds of all declared names.
-/

namespace Treescript

theorem Definition.exists_declaration (P : Place) (ds : List Definition) :
    ∀ x ∈ ds.map (·.name.text), ∃ name Q, name.text = x ∧
      ⟨.declaration name, Q⟩ ∈ Definition.visitsOfMembers P ds := by
  induction ds generalizing P with
  | nil => exact List.forall_mem_nil _
  | cons d ds ih =>
    refine List.forall_mem_cons.2 ⟨⟨d.name, P, rfl, by simp [Definition.visitsOfMembers]⟩, ?_⟩
    intro x hx
    obtain ⟨name, Q, hname, hmem⟩ := ih (P.after [d.name.text]) x hx
    exact ⟨name, Q, hname, by simp [Definition.visitsOfMembers, hmem]⟩

mutual

theorem Stmt.exists_declaration (P : Place) (s : Stmt) :
    ∀ x ∈ s.declares, ∃ name Q, name.text = x ∧ ⟨.declaration name, Q⟩ ∈ s.visits P := by
  match s with
  | .hole | .expression .. | .print .. | .block .. | .return .. => exact List.forall_mem_nil _
  | .define d => exact List.forall_mem_singleton.2 ⟨d.name, P, rfl, by simp [Stmt.visits]⟩
  | .operation o => exact List.forall_mem_singleton.2 ⟨o.name, P, rfl, by simp [Stmt.visits]⟩
  | .object _ name _ | .enum _ name _ =>
    exact List.forall_mem_singleton.2 ⟨name, P, rfl, by simp [Stmt.visits]⟩
  | .form _ name members =>
    refine List.forall_mem_cons.2 ⟨⟨name, P, rfl, by simp [Stmt.visits]⟩, fun x hx => ?_⟩
    obtain ⟨found, Q, hname, hmem⟩ :=
      Definition.exists_declaration (P.after [name.text]) members x hx
    exact ⟨found, Q, hname, by simp [Stmt.visits, hmem]⟩
  | .conditional _ _ branch arms none =>
    refine List.forall_mem_append.2 ⟨fun x hx => ?_, fun x hx => ?_⟩
    · obtain ⟨name, Q, hname, hmem⟩ := Stmt.exists_declaration (P.child 0) branch x hx
      exact ⟨name, Q, hname, by simp [Stmt.visits, hmem]⟩
    · obtain ⟨name, Q, hname, hmem⟩ :=
        Arm.exists_declarationOfList ((P.after branch.declares).child 1) arms x hx
      exact ⟨name, Q, hname, by simp [Stmt.visits, hmem]⟩
  | .conditional _ _ branch arms (some last) =>
    refine List.forall_mem_append.2 ⟨List.forall_mem_append.2 ⟨fun x hx => ?_, fun x hx => ?_⟩,
      fun x hx => ?_⟩
    · obtain ⟨name, Q, hname, hmem⟩ := Stmt.exists_declaration (P.child 0) branch x hx
      exact ⟨name, Q, hname, by simp [Stmt.visits, hmem]⟩
    · obtain ⟨name, Q, hname, hmem⟩ :=
        Arm.exists_declarationOfList ((P.after branch.declares).child 1) arms x hx
      exact ⟨name, Q, hname, by simp [Stmt.visits, hmem]⟩
    · obtain ⟨name, Q, hname, hmem⟩ := Stmt.exists_declaration
        ((P.after (branch.declares ++ Arm.declaresList arms)).child 2) last x hx
      exact ⟨name, Q, hname, by simp [Stmt.visits, hmem]⟩
  | .arm a =>
    intro x hx
    obtain ⟨name, Q, hname, hmem⟩ := Arm.exists_declaration P a x hx
    exact ⟨name, Q, hname, List.mem_cons_of_mem _ hmem⟩
  | .loop _ _ body =>
    intro x hx
    obtain ⟨name, Q, hname, hmem⟩ := Stmt.exists_declaration (P.child 0) body x hx
    exact ⟨name, Q, hname, by simp [Stmt.visits, hmem]⟩

theorem Arm.exists_declaration (P : Place) (a : Arm) :
    ∀ x ∈ a.declares, ∃ name Q, name.text = x ∧ ⟨.declaration name, Q⟩ ∈ a.visits P := by
  match a with
  | ⟨_, _, branch⟩ =>
    intro x hx
    obtain ⟨name, Q, hname, hmem⟩ := Stmt.exists_declaration P branch x hx
    exact ⟨name, Q, hname, List.mem_append_right _ hmem⟩

theorem Arm.exists_declarationOfList (P : Place) (as : List Arm) :
    ∀ x ∈ Arm.declaresList as, ∃ name Q, name.text = x ∧
      ⟨.declaration name, Q⟩ ∈ Arm.visitsOfList P as := by
  match as with
  | [] => exact List.forall_mem_nil _
  | a :: rest =>
    refine List.forall_mem_append.2 ⟨fun x hx => ?_, fun x hx => ?_⟩
    · obtain ⟨name, Q, hname, hmem⟩ := Arm.exists_declaration (P.child 0) a x hx
      exact ⟨name, Q, hname, by simp [Arm.visitsOfList, hmem]⟩
    · obtain ⟨name, Q, hname, hmem⟩ :=
        Arm.exists_declarationOfList ((P.after a.declares).child 1) rest x hx
      exact ⟨name, Q, hname, by simp [Arm.visitsOfList, hmem]⟩

end

theorem Token.exists_declaration (P : Place) (params : List Token) :
    ∀ param ∈ params, ∃ Q, ⟨.declaration param, Q⟩ ∈ Token.visitsOfParams P params := by
  induction params generalizing P with
  | nil => exact List.forall_mem_nil _
  | cons param params ih =>
    refine List.forall_mem_cons.2 ⟨⟨P, List.mem_cons_self⟩, fun other hother => ?_⟩
    obtain ⟨Q, hQ⟩ := ih (P.after [param.text]) other hother
    exact ⟨Q, List.mem_cons_of_mem _ hQ⟩

theorem Stmt.exists_declarationOfList (P : Place) (ss : List Stmt) :
    ∀ x ∈ Stmt.declaresList ss, ∃ name Q, name.text = x ∧
      ⟨.declaration name, Q⟩ ∈ Stmt.visitsOfList P ss := by
  induction ss generalizing P with
  | nil => exact List.forall_mem_nil _
  | cons s ss ih =>
    refine List.forall_mem_append.2 ⟨fun x hx => ?_, fun x hx => ?_⟩
    · obtain ⟨name, Q, hname, hmem⟩ := Stmt.exists_declaration (P.child 0) s x hx
      exact ⟨name, Q, hname, List.mem_append_left _ hmem⟩
    · obtain ⟨name, Q, hname, hmem⟩ := ih ((P.after s.declares).child 1) x hx
      exact ⟨name, Q, hname, List.mem_append_right _ hmem⟩

theorem Operation.exists_declaration (P : Place) (o : Operation) :
    ∀ x ∈ o.locals, ∃ name Q, name.text = x ∧ ⟨.declaration name, Q⟩ ∈ o.visits P := by
  obtain ⟨token, name, params, body⟩ := o
  refine List.forall_mem_append.2 ⟨List.forall_mem_map.2 fun param hparam => ?_, fun x hx => ?_⟩
  · obtain ⟨Q, hQ⟩ := Token.exists_declaration (P.operation ⟨token, name, params, body⟩) params
      param hparam
    exact ⟨param, Q, rfl, List.mem_append_left _ hQ⟩
  · obtain ⟨found, Q, hname, hQ⟩ := Stmt.exists_declarationOfList
      ((P.operation ⟨token, name, params, body⟩).after (params.map (·.text))) body x hx
    exact ⟨found, Q, hname, List.mem_append_right _ hQ⟩

end Treescript
