import Mathlib.Algebra.GroupWithZero.Nat
import Treescript.Proofs.Revisions

/-!
# Occurrences of statements

An occurrence of a statement in a program, given by what stands around it: a `Setting` is a
statement with a gap for a statement right below it, and a `Context` a whole program with a gap. The
settings of a context are listed from the outside in.
-/

namespace Treescript

inductive Setting where
  | block (token : Token) (before after : List Stmt)
  | operation (token name : Token) (params : List Token) (before after : List Stmt)
  /-- In the body of a method of an object. -/
  | method (token name : Token) (earlier : List Operation) (opToken opName : Token)
      (params : List Token) (before after : List Stmt) (later : List Operation)
  | branch (token : Token) (condition : Expr) (arms : List Arm) (last : Option Stmt)
  /-- The branch of an arm of a conditional. -/
  | armBranch (token : Token) (condition : Expr) (first : Stmt) (earlier : List Arm)
      (armToken : Token) (armCondition : Expr) (later : List Arm) (last : Option Stmt)
  | otherwise (token : Token) (condition : Expr) (first : Stmt) (arms : List Arm)
  /-- The branch of an arm outside a conditional. -/
  | strayArm (token : Token) (condition : Expr)
  | loop (token : Token) (condition : Expr)

namespace Setting

def fill : Setting → Stmt → Stmt
  | block token before after, s => .block token (before ++ s :: after)
  | operation token name params before after, s =>
    .operation ⟨token, name, params, before ++ s :: after⟩
  | method token name earlier opToken opName params before after later, s =>
    .object token name (earlier ++ ⟨opToken, opName, params, before ++ s :: after⟩ :: later)
  | branch token condition arms last, s => .conditional token condition s arms last
  | armBranch token condition first earlier armToken armCondition later last, s =>
    .conditional token condition first (earlier ++ ⟨armToken, armCondition, s⟩ :: later) last
  | otherwise token condition first arms, s => .conditional token condition first arms (some s)
  | strayArm token condition, s => .arm ⟨token, condition, s⟩
  | loop token condition, s => .loop token condition s

/-- The number of local scopes that the setting puts around the statement. -/
def depth : Setting → Nat
  | block .. | operation .. => 1
  | method .. => 2
  | branch .. | armBranch .. | otherwise .. | strayArm .. | loop .. => 0

end Setting

structure Context where
  before : Program
  settings : List Setting
  after : Program

namespace Context

def fill (C : Context) (s : Stmt) : Program :=
  C.before ++ C.settings.foldr Setting.fill s :: C.after

def depth (C : Context) : Nat := (C.settings.map Setting.depth).sum

end Context

variable {L : Licence} {fs : List Frame}

theorem Stmt.RevisesList.around (h : Frame.Plain fs) {s s' : Stmt} (hs : s.Revises L fs s')
    (before after : List Stmt) :
    Stmt.RevisesList L fs (before ++ s :: after) (before ++ s' :: after) := by
  induction before with
  | nil => exact .cons hs (Stmt.revisesList_refl h after)
  | cons b before ih => exact .cons (.plain (Stmt.alters_refl h b)) ih

theorem Operation.RevisesList.around (h : Frame.Plain fs) {o o' : Operation}
    (ho : o.Revises L fs o') (before after : List Operation) :
    Operation.RevisesList L fs (before ++ o :: after) (before ++ o' :: after) := by
  induction before with
  | nil => exact .cons ho (Operation.revisesList_refl h after)
  | cons b before ih => exact .cons (Operation.revises_refl h b) ih

theorem Arm.RevisesList.around (h : Frame.Plain fs) {a a' : Arm} (ha : a.Revises L fs a')
    (before after : List Arm) :
    Arm.RevisesList L fs (before ++ a :: after) (before ++ a' :: after) := by
  induction before with
  | nil => exact .cons ha (Arm.revisesList_refl h after)
  | cons b before ih => exact .cons (Arm.revises_refl h b) ih

/-- Revising the body of an operation in one statement leaves its parameters as they are. -/
theorem Operation.revises_around (h : Frame.Plain fs) {s s' : Stmt}
    (hs : s.Revises L (.shared (Equiv.refl String) :: fs) s') (token name : Token)
    (params : List Token) (before after : List Stmt) :
    Operation.Revises L fs ⟨token, name, params, before ++ s :: after⟩
      ⟨token, name, params, before ++ s' :: after⟩ := by
  have ho : Operation.Revises L fs ⟨token, name, params, before ++ s :: after⟩
      ⟨token, name, params.map (·.renamed (Equiv.refl String)), before ++ s' :: after⟩ :=
    .mk L.renames_refl (.around h.cons hs before after)
  rwa [List.map_id'' (Token.renamed_eq_self Equiv.refl_apply)] at ho

theorem Frame.Plain.inside {depth : Nat} (h : Plain fs) : Plain (inside fs depth) := by
  induction depth with
  | zero => exact h
  | succ depth ih => exact ih.cons

theorem Frame.inside_inside (fs : List Frame) (k l : Nat) :
    inside (inside fs k) l = inside fs (k + l) := by
  rw [inside, inside, inside, ← List.append_assoc, List.replicate_append_replicate, Nat.add_comm]

theorem Stmt.alters_conditional (h : Frame.Plain fs) (token : Token) (condition : Expr)
    {branch branch' : Stmt} (hb : branch.Revises L fs branch') {arms arms' : List Arm}
    (ha : Arm.RevisesList L fs arms arms') {last last' : Option Stmt}
    (hl : Option.Rel (Stmt.Revises L fs) last last') :
    Stmt.Alters L fs (.conditional token condition branch arms last)
      (.conditional token condition branch' arms' last') := by
  have heq := h.revise_eq condition
  cases hl with
  | none =>
    have hc : Stmt.Alters L fs (.conditional token condition branch arms none)
        (.conditional token (condition.revise fs) branch' arms' none) :=
      .conditional (h.revisable condition) hb ha
    rwa [heq] at hc
  | @some last last' hl =>
    have hc : Stmt.Alters L fs (.conditional token condition branch arms (some last))
        (.conditional token (condition.revise fs) branch' arms' (some last')) :=
      .otherwise (h.revisable condition) hb ha hl
    rwa [heq] at hc

theorem Arm.revises_branch (h : Frame.Plain fs) (token : Token) (condition : Expr) {s s' : Stmt}
    (hs : s.Revises L fs s') :
    Arm.Revises L fs ⟨token, condition, s⟩ ⟨token, condition, s'⟩ := by
  have ha : Arm.Revises L fs ⟨token, condition, s⟩ ⟨token, condition.revise fs, s'⟩ :=
    .mk (h.revisable condition) hs
  rwa [h.revise_eq] at ha

theorem Setting.alters_fill (h : Frame.Plain fs) (S : Setting) {s s' : Stmt}
    (hs : s.Revises L (Frame.inside fs S.depth) s') : (S.fill s).Alters L fs (S.fill s') := by
  have hhere := h.here?_eq
  have hrefl : ∀ last : Option Stmt, Option.Rel (Stmt.Revises L fs) last last := by
    intro last
    cases last with
    | none => exact .none
    | some last => exact .some (.plain (Stmt.alters_refl h last))
  cases S with
  | block _ before after => exact .block L.renames_refl (.around h.cons hs before after)
  | operation token name params before after =>
    exact .operation hhere rfl (Operation.revises_around h hs token name params before after)
  | method _ _ earlier token name params before after later =>
    exact .object hhere rfl (.around h.cons
      (Operation.revises_around h.cons hs token name params before after) earlier later)
  | branch token condition arms last =>
    exact Stmt.alters_conditional h token condition hs (Arm.revisesList_refl h arms) (hrefl last)
  | armBranch token condition first earlier armToken armCondition later last =>
    exact Stmt.alters_conditional h token condition (.plain (Stmt.alters_refl h first))
      (.around h (Arm.revises_branch h armToken armCondition hs) earlier later) (hrefl last)
  | otherwise token condition first arms =>
    exact Stmt.alters_conditional h token condition (.plain (Stmt.alters_refl h first))
      (Arm.revisesList_refl h arms) (.some hs)
  | strayArm token condition => exact .arm (Arm.revises_branch h token condition hs)
  | loop token condition =>
    have hl : Stmt.Alters L fs (.loop token condition s)
        (.loop token (condition.revise fs) s') := .loop (h.revisable condition) hs
    rwa [h.revise_eq] at hl

theorem Setting.revises_fill {s s' : Stmt} (settings : List Setting) (h : Frame.Plain fs)
    (hs : s.Revises L (Frame.inside fs (settings.map Setting.depth).sum) s') :
    (settings.foldr Setting.fill s).Revises L fs (settings.foldr Setting.fill s') := by
  induction settings generalizing fs with
  | nil => exact hs
  | cons S rest ih =>
    rw [List.map_cons, List.sum_cons, ← Frame.inside_inside] at hs
    exact .plain (S.alters_fill h (ih h.inside hs))

/-- A revision of one statement, all else unchanged, is a revision of the program. -/
theorem Context.revises_fill (C : Context) {s s' : Stmt}
    (hs : s.Revises L (Frame.inside [] C.depth) s') :
    Stmt.RevisesList L [] (C.fill s) (C.fill s') :=
  .around .nil (Setting.revises_fill C.settings .nil hs) C.before C.after

theorem Stmt.exists_visits_around (s : Stmt) (P : Place) (before after : List Stmt) :
    ∃ Q, ∀ v ∈ s.visits Q, v ∈ Stmt.visitsOfList P (before ++ s :: after) := by
  induction before generalizing P with
  | nil => exact ⟨P.child 0, fun v hv => List.mem_append_left _ hv⟩
  | cons b before ih =>
    obtain ⟨Q, hQ⟩ := ih ((P.after b.declares).child 1)
    exact ⟨Q, fun v hv => List.mem_append_right _ (hQ v hv)⟩

theorem Operation.exists_visits_around (o : Operation) (P : Place)
    (before after : List Operation) :
    ∃ Q, ∀ v ∈ o.visits Q, v ∈ Operation.visitsOfList P (before ++ o :: after) := by
  induction before generalizing P with
  | nil => exact ⟨P.child 0, fun v hv => by simp [Operation.visitsOfList, hv]⟩
  | cons b before ih =>
    obtain ⟨Q, hQ⟩ := ih (P.child 1)
    exact ⟨Q, fun v hv => by simp [Operation.visitsOfList, hQ v hv]⟩

theorem Arm.exists_visits_around (a : Arm) (P : Place) (before after : List Arm) :
    ∃ Q, ∀ v ∈ a.visits Q, v ∈ Arm.visitsOfList P (before ++ a :: after) := by
  induction before generalizing P with
  | nil => exact ⟨P.child 0, fun v hv => by simp [Arm.visitsOfList, hv]⟩
  | cons b before ih =>
    obtain ⟨Q, hQ⟩ := ih ((P.after b.declares).child 1)
    exact ⟨Q, fun v hv => by simp [Arm.visitsOfList, hQ v hv]⟩

theorem Setting.exists_visits (S : Setting) (s : Stmt) (P : Place) :
    ∃ Q, ∀ v ∈ s.visits Q, v ∈ (S.fill s).visits P := by
  cases S with
  | block token before after =>
    obtain ⟨Q, hQ⟩ := s.exists_visits_around
      (P.enter (Stmt.declaresList (before ++ s :: after))) before after
    exact ⟨Q, fun v hv => List.mem_cons_of_mem _ (hQ v hv)⟩
  | operation token name params before after =>
    obtain ⟨Q, hQ⟩ := s.exists_visits_around
      (((P.after [name.text]).operation ⟨token, name, params, before ++ s :: after⟩).after
        (params.map (·.text))) before after
    exact ⟨Q, fun v hv => by simp [Setting.fill, Stmt.visits, Operation.visits, hQ v hv]⟩
  | method token name earlier opToken opName params before after later =>
    obtain ⟨R, hR⟩ := Operation.exists_visits_around ⟨opToken, opName, params, before ++ s :: after⟩
      (P.after [name.text]).object earlier later
    obtain ⟨Q, hQ⟩ := s.exists_visits_around
      ((R.operation ⟨opToken, opName, params, before ++ s :: after⟩).after (params.map (·.text)))
      before after
    refine ⟨Q, fun v hv => List.mem_cons_of_mem _ (List.mem_cons_of_mem _ (hR v ?_))⟩
    exact List.mem_append_right _ (hQ v hv)
  | branch token condition arms last =>
    refine ⟨P.child 0, fun v hv => ?_⟩
    cases last <;> simp [Setting.fill, Stmt.visits, hv]
  | armBranch token condition first earlier armToken armCondition later last =>
    obtain ⟨Q, hQ⟩ := Arm.exists_visits_around ⟨armToken, armCondition, s⟩
      ((P.after first.declares).child 1) earlier later
    refine ⟨Q, fun v hv => ?_⟩
    have hmem := hQ v (List.mem_append_right _ hv)
    cases last <;> simp [Setting.fill, Stmt.visits, hmem]
  | otherwise token condition first arms =>
    exact ⟨(P.after (first.declares ++ Arm.declaresList arms)).child 2,
      fun v hv => by simp [Setting.fill, Stmt.visits, hv]⟩
  | strayArm token condition =>
    exact ⟨P, fun v hv => by simp [Setting.fill, Stmt.visits, Arm.visits, hv]⟩
  | loop token condition =>
    exact ⟨P.child 0, fun v hv => by simp [Setting.fill, Stmt.visits, hv]⟩

/-- Whatever there is to visit in a statement is visited in the program around it. -/
theorem Context.exists_visits (C : Context) (s : Stmt) (program : Nat) :
    ∃ Q, ∀ v ∈ s.visits Q, v ∈ (C.fill s).visits program := by
  obtain ⟨P, hP⟩ := Stmt.exists_visits_around (C.settings.foldr Setting.fill s) (.top program)
    C.before C.after
  have hinner : ∃ Q, ∀ v ∈ s.visits Q, v ∈ (C.settings.foldr Setting.fill s).visits P := by
    clear hP
    induction C.settings generalizing P with
    | nil => exact ⟨P, fun v hv => hv⟩
    | cons S rest ih =>
      obtain ⟨R, hR⟩ := S.exists_visits (rest.foldr Setting.fill s) P
      obtain ⟨Q, hQ⟩ := ih R
      exact ⟨Q, fun v hv => hR v (hQ v hv)⟩
  obtain ⟨Q, hQ⟩ := hinner
  exact ⟨Q, fun v hv => hP v (hQ v hv)⟩

/-- The statements differ in their numbers of hops only. -/
def Stmt.SameText (s s' : Stmt) : Prop := ∀ look P, s'.annotate look P = s.annotate look P

namespace Stmt.SameText

variable {s s' : Stmt}

theorem declares_eq (h : s.SameText s') : s'.declares = s.declares := by
  rw [← s'.declares_annotate Place.distance? (.top 0), h, Stmt.declares_annotate]

theorem declaresList_around (h : s.SameText s') (before after : List Stmt) :
    Stmt.declaresList (before ++ s' :: after) = Stmt.declaresList (before ++ s :: after) := by
  induction before with
  | nil => simp only [List.nil_append, Stmt.declaresList, h.declares_eq]
  | cons b before ih => simp only [List.cons_append, Stmt.declaresList, ih]

theorem annotateList_around (h : s.SameText s') (look : Numbering) (P : Place)
    (before after : List Stmt) :
    Stmt.annotateList look P (before ++ s' :: after) =
      Stmt.annotateList look P (before ++ s :: after) := by
  induction before generalizing P with
  | nil => simp only [List.nil_append, Stmt.annotateList, h.declares_eq, h look]
  | cons b before ih => simp only [List.cons_append, Stmt.annotateList, ih]

theorem annotate_operation (h : s.SameText s') (look : Numbering) (P : Place) (token name : Token)
    (params : List Token) (before after : List Stmt) :
    Operation.annotate look P ⟨token, name, params, before ++ s' :: after⟩ =
      Operation.annotate look P ⟨token, name, params, before ++ s :: after⟩ := by
  simp only [Operation.annotate, Place.operation, Operation.locals, h.declaresList_around,
    h.annotateList_around]

end Stmt.SameText

theorem Operation.annotateList_around {o o' : Operation}
    (h : ∀ look P, o'.annotate look P = o.annotate look P) (look : Numbering) (P : Place)
    (before after : List Operation) :
    Operation.annotateList look P (before ++ o' :: after) =
      Operation.annotateList look P (before ++ o :: after) := by
  induction before generalizing P with
  | nil => simp only [List.nil_append, Operation.annotateList, h]
  | cons b before ih => simp only [List.cons_append, Operation.annotateList, ih]

namespace Stmt.SameText

variable {s s' : Stmt}

theorem armDeclares_around (h : s.SameText s') (before after : List Arm) (token : Token)
    (condition : Expr) :
    Arm.declaresList (before ++ ⟨token, condition, s'⟩ :: after) =
      Arm.declaresList (before ++ ⟨token, condition, s⟩ :: after) := by
  induction before with
  | nil => simp only [List.nil_append, Arm.declaresList, Arm.declares, h.declares_eq]
  | cons b before ih => simp only [List.cons_append, Arm.declaresList, ih]

theorem armAnnotate_around (h : s.SameText s') (look : Numbering) (P : Place)
    (before after : List Arm) (token : Token) (condition : Expr) :
    Arm.annotateList look P (before ++ ⟨token, condition, s'⟩ :: after) =
      Arm.annotateList look P (before ++ ⟨token, condition, s⟩ :: after) := by
  induction before generalizing P with
  | nil =>
    simp only [List.nil_append, Arm.annotateList, Arm.annotate, Arm.declares, h.declares_eq, h look]
  | cons b before ih => simp only [List.cons_append, Arm.annotateList, ih]

end Stmt.SameText

theorem Setting.sameText_fill (S : Setting) {s s' : Stmt} (h : s.SameText s') :
    (S.fill s).SameText (S.fill s') := by
  intro look P
  cases S with
  | block _ before after =>
    simp only [Setting.fill, Stmt.annotate, h.declaresList_around, h.annotateList_around]
  | operation token name params before after =>
    simp only [Setting.fill, Stmt.annotate, h.annotate_operation]
  | method _ _ earlier token name params before after later =>
    simp only [Setting.fill, Stmt.annotate]
    rw [Operation.annotateList_around fun look P =>
      h.annotate_operation look P token name params before after]
  | branch _ _ _ last =>
    cases last <;> simp only [Setting.fill, Stmt.annotate, h.declares_eq, h look]
  | armBranch _ _ _ _ _ _ _ last =>
    cases last <;> simp only [Setting.fill, Stmt.annotate, h.armDeclares_around,
      h.armAnnotate_around]
  | otherwise => simp only [Setting.fill, Stmt.annotate, h look]
  | strayArm => simp only [Setting.fill, Stmt.annotate, Arm.annotate, h look]
  | loop => simp only [Setting.fill, Stmt.annotate, h look]

theorem Context.annotated_fill (C : Context) {s s' : Stmt} (h : s.SameText s') (program : Nat) :
    (C.fill s').annotated program = (C.fill s).annotated program := by
  have hsame : (C.settings.foldr Setting.fill s).SameText (C.settings.foldr Setting.fill s') := by
    induction C.settings with
    | nil => exact h
    | cons S rest ih => exact S.sameText_fill ih
  exact hsame.annotateList_around _ _ _ _

end Treescript
