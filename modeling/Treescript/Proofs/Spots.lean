import Treescript.Proofs.Occurrences
import Treescript.Proofs.ResolverWalk

/-!
# Occurrences of expressions

An occurrence of an expression in a program, given by what stands around it: the expressions that it
is an operand of, from the outside in, the statement that these stand in, and the program around the
statement. Every expression node of a program occurs at a spot. Resolving a program numbers the
expression at a spot by the place of the spot, and everything around it as if it was not there.
-/

namespace Treescript

/-- An expression with a gap for an expression right below it. -/
inductive Operand where
  | assigned (name : Token) (hops : Option Nat)
  | unary (operator : Token)
  | binaryLeft (operator : Token) (right : Expr)
  | binaryRight (left : Expr) (operator : Token)
  | logicalLeft (operator : Token) (right : Expr)
  | logicalRight (left : Expr) (operator : Token)
  | counted (operator name : Token) (hops : Option Nat)
  | callee (paren : Token) (args : List Expr)
  | argument (f : Expr) (paren : Token) (before after : List Expr)
  | grouped (token : Token)
  | getObject (name : Token)
  | setObject (name : Token) (value : Expr)
  | setValue (object : Expr) (name : Token)

def Operand.fill : Operand → Expr → Expr
  | assigned name hops, e => .assign name e hops
  | unary operator, e => .unary operator e
  | binaryLeft operator right, e => .binary e operator right
  | binaryRight left operator, e => .binary left operator e
  | logicalLeft operator right, e => .logical e operator right
  | logicalRight left operator, e => .logical left operator e
  | counted operator name hops, e => .count operator e name hops
  | callee paren args, e => .call e paren args
  | argument f paren before after, e => .call f paren (before ++ e :: after)
  | grouped token, e => .group token e
  | getObject name, e => .get e name
  | setObject name value, e => .set e name value
  | setValue object name, e => .set object name e

/-- A statement with a gap for an expression that stands in it. -/
inductive Slot where
  | expression (token : Token)
  | print (token : Token)
  | initial (token name : Token)
  | tested (token : Token) (branch : Stmt) (arms : List Arm) (last : Option Stmt)
  /-- The condition of an arm of a conditional. -/
  | armTested (token : Token) (condition : Expr) (first : Stmt) (earlier : List Arm)
      (armToken : Token) (branch : Stmt) (later : List Arm) (last : Option Stmt)
  /-- The condition of an arm outside a conditional. -/
  | strayArm (token : Token) (branch : Stmt)
  | loop (token : Token) (body : Stmt)
  | returned (keyword : Token)
  /-- The default of a member of a form. -/
  | member (token name : Token) (earlier : List Definition) (memberToken memberName : Token)
      (later : List Definition)

def Slot.fill : Slot → Expr → Stmt
  | expression token, e => .expression token e
  | print token, e => .print token e
  | initial token name, e => .define ⟨token, name, some e⟩
  | tested token branch arms last, e => .conditional token e branch arms last
  | armTested token condition first earlier armToken branch later last, e =>
    .conditional token condition first (earlier ++ ⟨armToken, e, branch⟩ :: later) last
  | strayArm token branch, e => .arm ⟨token, e, branch⟩
  | loop token body, e => .loop token e body
  | returned keyword, e => .return keyword (some e)
  | member token name earlier memberToken memberName later, e =>
    .form token name (earlier ++ ⟨memberToken, memberName, some e⟩ :: later)

structure Spot where
  operands : List Operand
  slot : Slot
  around : Context

/-- An expression inside of others. -/
def Operand.fillAll (operands : List Operand) (e : Expr) : Expr := operands.foldr Operand.fill e

def Spot.fill (S : Spot) (e : Expr) : Program :=
  S.around.fill (S.slot.fill (Operand.fillAll S.operands e))

theorem Stmt.declaresList_split (before after : List Stmt) (s : Stmt) :
    Stmt.declaresList (before ++ s :: after) =
      Stmt.declaresList before ++ (s.declares ++ Stmt.declaresList after) := by
  induction before with
  | nil => rfl
  | cons b before ih =>
    rw [List.cons_append, Stmt.declaresList, ih, Stmt.declaresList, List.append_assoc]

theorem Arm.declaresList_split (before after : List Arm) (a : Arm) :
    Arm.declaresList (before ++ a :: after) =
      Arm.declaresList before ++ (a.declares ++ Arm.declaresList after) := by
  induction before with
  | nil => rfl
  | cons b before ih =>
    rw [List.cons_append, Arm.declaresList, ih, Arm.declaresList, List.append_assoc]

/-- What a statement declares does not depend on the expression in its slot. -/
theorem Slot.declares_fill (slot : Slot) (e e' : Expr) :
    (slot.fill e).declares = (slot.fill e').declares := by
  cases slot with
  | tested token branch arms last => cases last <;> rfl
  | armTested token condition first earlier armToken branch later last =>
    cases last <;> simp only [fill, Stmt.declares, Arm.declaresList_split, Arm.declares]
  | member => simp [fill, Stmt.declares]
  | _ => rfl

/-- What a statement declares depends on that in its gap only through what this declares. -/
theorem Setting.declares_fill (S : Setting) {s s' : Stmt} (h : s.declares = s'.declares) :
    (S.fill s).declares = (S.fill s').declares := by
  cases S with
  | branch token condition arms last => cases last <;> simp only [fill, Stmt.declares, h]
  | armBranch token condition first earlier armToken armCondition later last =>
    cases last <;> simp only [fill, Stmt.declares, Arm.declaresList_split, Arm.declares, h]
  | block | operation | method => rfl
  | otherwise | strayArm | loop => simp only [fill, Stmt.declares, Arm.declares, h]

theorem Setting.declares_fillAll (settings : List Setting) {s s' : Stmt}
    (h : s.declares = s'.declares) :
    (settings.foldr Setting.fill s).declares = (settings.foldr Setting.fill s').declares := by
  induction settings with
  | nil => exact h
  | cons S rest ih => exact S.declares_fill ih

section Annotation

variable (look : Numbering) (P : Place)

theorem Expr.annotateList_append (es es' : List Expr) :
    Expr.annotateList look P (es ++ es') =
      Expr.annotateList look P es ++ Expr.annotateList look P es' := by
  induction es with
  | nil => rfl
  | cons e es ih =>
    rw [List.cons_append, Expr.annotateList, ih, Expr.annotateList, List.cons_append]

theorem Operand.annotate_fill (K : Operand) :
    ∃ K' : Operand, ∀ e, (K.fill e).annotate look P = K'.fill (e.annotate look P) := by
  cases K with
  | assigned name hops => exact ⟨.assigned name _, fun _ => rfl⟩
  | unary operator => exact ⟨.unary operator, fun _ => rfl⟩
  | binaryLeft operator right => exact ⟨.binaryLeft operator _, fun _ => rfl⟩
  | binaryRight left operator => exact ⟨.binaryRight _ operator, fun _ => rfl⟩
  | logicalLeft operator right => exact ⟨.logicalLeft operator _, fun _ => rfl⟩
  | logicalRight left operator => exact ⟨.logicalRight _ operator, fun _ => rfl⟩
  | counted operator name hops => exact ⟨.counted operator name _, fun _ => rfl⟩
  | callee paren args => exact ⟨.callee paren _, fun _ => rfl⟩
  | argument f paren before after =>
    refine ⟨.argument (f.annotate look P) paren (Expr.annotateList look P before)
      (Expr.annotateList look P after), fun e => ?_⟩
    rw [fill, Expr.annotate, Expr.annotateList_append, Expr.annotateList]
    rfl
  | grouped token => exact ⟨.grouped token, fun _ => rfl⟩
  | getObject name => exact ⟨.getObject name, fun _ => rfl⟩
  | setObject name value => exact ⟨.setObject name _, fun _ => rfl⟩
  | setValue object name => exact ⟨.setValue _ name, fun _ => rfl⟩

theorem Operand.annotate_fillAll (operands : List Operand) :
    ∃ operands', ∀ e, (fillAll operands e).annotate look P =
      fillAll operands' (e.annotate look P) := by
  induction operands with
  | nil => exact ⟨[], fun _ => rfl⟩
  | cons K rest ih =>
    obtain ⟨rest', hrest⟩ := ih
    obtain ⟨K', hK⟩ := K.annotate_fill look P
    refine ⟨K' :: rest', fun e => ?_⟩
    rw [fillAll, List.foldr_cons]
    exact (hK _).trans (congrArg K'.fill (hrest e))

/-- The places in a list depend on what the statements before them declare. -/
theorem Stmt.annotateList_split (before after : List Stmt) (declared : List String) :
    ∃ before' after' Q, ∀ s, s.declares = declared →
      Stmt.annotateList look P (before ++ s :: after) =
        before' ++ s.annotate look Q :: after' := by
  induction before generalizing P with
  | nil =>
    refine ⟨[], Stmt.annotateList look ((P.after declared).child 1) after, P.child 0, ?_⟩
    rintro s rfl
    rfl
  | cons b before ih =>
    obtain ⟨before', after', Q, h⟩ := ih ((P.after b.declares).child 1)
    refine ⟨b.annotate look (P.child 0) :: before', after', Q, fun s hs => ?_⟩
    rw [List.cons_append, Stmt.annotateList, h s hs, List.cons_append]

theorem Arm.annotateList_split (before after : List Arm) (declared : List String) :
    ∃ before' after' Q, ∀ a, a.declares = declared →
      Arm.annotateList look P (before ++ a :: after) = before' ++ a.annotate look Q :: after' := by
  induction before generalizing P with
  | nil =>
    refine ⟨[], Arm.annotateList look ((P.after declared).child 1) after, P.child 0, ?_⟩
    rintro a rfl
    rfl
  | cons b before ih =>
    obtain ⟨before', after', Q, h⟩ := ih ((P.after b.declares).child 1)
    refine ⟨b.annotate look (P.child 0) :: before', after', Q, fun a ha => ?_⟩
    rw [List.cons_append, Arm.annotateList, h a ha, List.cons_append]

theorem Definition.annotateMembers_split (before after : List Definition) (token name : Token) :
    ∃ before' after' Q, ∀ e,
      Definition.annotateMembers look P (before ++ ⟨token, name, some e⟩ :: after) =
        before' ++ ⟨token, name, some (e.annotate look Q)⟩ :: after' := by
  induction before generalizing P with
  | nil =>
    exact ⟨[], Definition.annotateMembers look (P.after [name.text]) after, P, fun _ => rfl⟩
  | cons d before ih =>
    obtain ⟨before', after', Q, h⟩ := ih (P.after [d.name.text])
    refine ⟨d.annotate look P :: before', after', Q, fun e => ?_⟩
    rw [List.cons_append, Definition.annotateMembers, h e, List.cons_append]

/-- The place of the last branch depends on what the others declare. -/
theorem Stmt.annotate_conditional (last : Option Stmt) (declared : List String) :
    ∃ last', ∀ token condition first arms, first.declares ++ Arm.declaresList arms = declared →
      (Stmt.conditional token condition first arms last).annotate look P =
        .conditional token (condition.annotate look P) (first.annotate look (P.child 0))
          (Arm.annotateList look ((P.after first.declares).child 1) arms) last' := by
  cases last with
  | none => exact ⟨none, fun _ _ _ _ _ => rfl⟩
  | some last =>
    refine ⟨some (last.annotate look ((P.after declared).child 2)), ?_⟩
    rintro token condition first arms rfl
    rfl

theorem Slot.annotate_fill (slot : Slot) :
    ∃ (slot' : Slot) (Q : Place), ∀ e, (slot.fill e).annotate look P =
      slot'.fill (e.annotate look Q) := by
  cases slot with
  | expression token => exact ⟨.expression token, P, fun _ => rfl⟩
  | print token => exact ⟨.print token, P, fun _ => rfl⟩
  | initial token name => exact ⟨.initial token name, P.initializer name.text, fun _ => rfl⟩
  | tested token branch arms last =>
    obtain ⟨last', hlast⟩ := Stmt.annotate_conditional look P last
      (branch.declares ++ Arm.declaresList arms)
    exact ⟨.tested token _ _ last', P, fun e => hlast token e branch arms rfl⟩
  | armTested token condition first earlier armToken branch later last =>
    obtain ⟨earlier', later', Q, h⟩ := Arm.annotateList_split look
      ((P.after first.declares).child 1) earlier later branch.declares
    obtain ⟨last', hlast⟩ := Stmt.annotate_conditional look P last (first.declares ++
      (Arm.declaresList earlier ++ (branch.declares ++ Arm.declaresList later)))
    refine ⟨.armTested token (condition.annotate look P) (first.annotate look (P.child 0))
      earlier' armToken (branch.annotate look Q) later' last', Q, fun e => ?_⟩
    rw [fill, hlast _ _ _ _ (by rw [Arm.declaresList_split, Arm.declares]), h _ rfl]
    rfl
  | strayArm token branch => exact ⟨.strayArm token _, P, fun _ => rfl⟩
  | loop token body => exact ⟨.loop token _, P, fun _ => rfl⟩
  | returned keyword => exact ⟨.returned keyword, P, fun _ => rfl⟩
  | member token name earlier memberToken memberName later =>
    obtain ⟨earlier', later', Q, h⟩ := Definition.annotateMembers_split look
      (P.after [name.text]) earlier later memberToken memberName
    refine ⟨.member token name earlier' memberToken memberName later', Q, fun e => ?_⟩
    rw [fill, Stmt.annotate, h e]
    rfl

theorem Operation.annotate_split (token name : Token) (params : List Token)
    (before after : List Stmt) (declared : List String) :
    ∃ before' after' Q, ∀ s, s.declares = declared →
      Operation.annotate look P ⟨token, name, params, before ++ s :: after⟩ =
        ⟨token, name, params, before' ++ s.annotate look Q :: after'⟩ := by
  let names := params.map (·.text) ++
    (Stmt.declaresList before ++ (declared ++ Stmt.declaresList after))
  let inside : Place := { P.enter names with inOperation := true }
  obtain ⟨before', after', Q, h⟩ := Stmt.annotateList_split look
    (inside.after (params.map (·.text))) before after declared
  refine ⟨before', after', Q, ?_⟩
  rintro s rfl
  rw [Operation.annotate, ← h s rfl, Place.operation, Operation.locals, Stmt.declaresList_split]

theorem Operation.annotateList_split (before after : List Operation) :
    ∃ before' after' Q, ∀ o, Operation.annotateList look P (before ++ o :: after) =
      before' ++ o.annotate look Q :: after' := by
  induction before generalizing P with
  | nil => exact ⟨[], Operation.annotateList look (P.child 1) after, P.child 0, fun _ => rfl⟩
  | cons b before ih =>
    obtain ⟨before', after', Q, h⟩ := ih (P.child 1)
    refine ⟨b.annotate look (P.child 0) :: before', after', Q, fun o => ?_⟩
    rw [List.cons_append, Operation.annotateList, h o, List.cons_append]

theorem Setting.annotate_fill (S : Setting) (declared : List String) :
    ∃ (S' : Setting) (Q : Place), ∀ s, s.declares = declared →
      (S.fill s).annotate look P = S'.fill (s.annotate look Q) := by
  cases S with
  | block token before after =>
    obtain ⟨before', after', Q, h⟩ := Stmt.annotateList_split look (P.enter
      (Stmt.declaresList before ++ (declared ++ Stmt.declaresList after))) before after declared
    refine ⟨.block token before' after', Q, ?_⟩
    rintro s rfl
    rw [fill, Stmt.annotate, Stmt.declaresList_split, h s rfl]
    rfl
  | operation token name params before after =>
    obtain ⟨before', after', Q, h⟩ := Operation.annotate_split look (P.after [name.text]) token name
      params before after declared
    refine ⟨.operation token name params before' after', Q, fun s hs => ?_⟩
    rw [fill, Stmt.annotate, h s hs]
    rfl
  | method token name earlier opToken opName params before after later =>
    obtain ⟨earlier', later', R, hmethods⟩ := Operation.annotateList_split look
      (P.after [name.text]).object earlier later
    obtain ⟨before', after', Q, h⟩ := Operation.annotate_split look R opToken opName params before
      after declared
    refine ⟨.method token name earlier' opToken opName params before' after' later', Q,
      fun s hs => ?_⟩
    rw [fill, Stmt.annotate, hmethods, h s hs]
    rfl
  | branch token condition arms last =>
    obtain ⟨last', hlast⟩ := Stmt.annotate_conditional look P last
      (declared ++ Arm.declaresList arms)
    refine ⟨.branch token (condition.annotate look P)
      (Arm.annotateList look ((P.after declared).child 1) arms) last', P.child 0, ?_⟩
    rintro s rfl
    exact hlast token condition s arms rfl
  | armBranch token condition first earlier armToken armCondition later last =>
    obtain ⟨earlier', later', Q, h⟩ := Arm.annotateList_split look
      ((P.after first.declares).child 1) earlier later declared
    obtain ⟨last', hlast⟩ := Stmt.annotate_conditional look P last (first.declares ++
      (Arm.declaresList earlier ++ (declared ++ Arm.declaresList later)))
    refine ⟨.armBranch token (condition.annotate look P) (first.annotate look (P.child 0))
      earlier' armToken (armCondition.annotate look Q) later' last', Q, ?_⟩
    rintro s rfl
    rw [fill, hlast _ _ _ _ (by rw [Arm.declaresList_split, Arm.declares]), h _ rfl]
    rfl
  | otherwise token condition first arms =>
    exact ⟨.otherwise token (condition.annotate look P) (first.annotate look (P.child 0))
      (Arm.annotateList look ((P.after first.declares).child 1) arms),
      (P.after (first.declares ++ Arm.declaresList arms)).child 2, fun s _ => rfl⟩
  | strayArm token condition =>
    exact ⟨.strayArm token _, P, fun s _ => rfl⟩
  | loop token condition =>
    exact ⟨.loop token _, P.child 0, fun s _ => rfl⟩

theorem Setting.annotate_fillAll (settings : List Setting) (s₀ : Stmt) :
    ∃ (settings' : List Setting) (Q : Place), ∀ s, s.declares = s₀.declares →
      (settings.foldr Setting.fill s).annotate look P =
        settings'.foldr Setting.fill (s.annotate look Q) := by
  induction settings generalizing P with
  | nil => exact ⟨[], P, fun _ _ => rfl⟩
  | cons S rest ih =>
    obtain ⟨S', R, hS⟩ := S.annotate_fill look P (rest.foldr Setting.fill s₀).declares
    obtain ⟨rest', Q, hrest⟩ := ih R
    refine ⟨S' :: rest', Q, fun s hs => ?_⟩
    have hdeclares := Setting.declares_fillAll rest hs
    exact (hS _ hdeclares).trans (congrArg S'.fill (hrest s hs))

end Annotation

/-- Resolution numbers what stands at a spot by the place of the spot, and what is around it in one
and the same way. -/
theorem Spot.resolve_fill (S : Spot) :
    ∃ (S' : Spot) (Q : Place), ∀ e,
      (S.fill e).resolve.program = S'.fill (e.annotate Place.distance? Q) := by
  obtain ⟨operands, slot, before, settings, after⟩ := S
  -- nothing around the spot looks at the expression that stands there
  obtain ⟨before', after', P, hlist⟩ := Stmt.annotateList_split Place.distance? (.top 0) before
    after (settings.foldr Setting.fill (slot.fill .hole)).declares
  obtain ⟨settings', R, hsettings⟩ := Setting.annotate_fillAll Place.distance? P settings
    (slot.fill .hole)
  obtain ⟨slot', Q, hslot⟩ := slot.annotate_fill Place.distance? R
  obtain ⟨operands', hoperands⟩ := Operand.annotate_fillAll Place.distance? Q operands
  refine ⟨⟨operands', slot', before', settings', after'⟩, Q, fun e => ?_⟩
  have hdeclares := slot.declares_fill (Operand.fillAll operands e) .hole
  rw [Program.resolve_eq 0]
  refine (hlist _ (Setting.declares_fillAll settings hdeclares)).trans ?_
  rw [hsettings _ hdeclares, hslot, hoperands]
  rfl

section Existence

variable {e : Expr}

/-- The first expression is the second one or has it below. -/
def Expr.Has (whole e : Expr) : Prop := ∃ operands, whole = Operand.fillAll operands e

theorem Expr.Has.refl (e : Expr) : e.Has e := ⟨[], rfl⟩

/-- An expression node of a tree is its root or one of the others. -/
theorem Expr.Has.of_mem_cons {whole : Expr} {nodes : List Node}
    (h : Node.expr e ∈ Node.expr whole :: nodes) (hnodes : Node.expr e ∈ nodes → whole.Has e) :
    whole.Has e := by
  rcases List.mem_cons.1 h with heq | hmem
  · exact Node.expr.inj heq ▸ .refl e
  · exact hnodes hmem

theorem Expr.Has.operand {part : Expr} (h : part.Has e) (K : Operand) : (K.fill part).Has e := by
  obtain ⟨operands, rfl⟩ := h
  exact ⟨K :: operands, rfl⟩

mutual

theorem Expr.has_of_mem_nodes {whole : Expr} (h : Node.expr e ∈ whole.nodes) : whole.Has e := by
  match whole with
  | .hole => cases h
  | .literal .. | .variable .. | .self .. | .parent _ | .global _ =>
    obtain rfl := Node.expr.inj (List.mem_singleton.1 h)
    exact .refl _
  | .assign name value hops =>
    refine .of_mem_cons h fun h => ?_
    exact (Expr.has_of_mem_nodes h).operand (.assigned name hops)
  | .unary operator right =>
    refine .of_mem_cons h fun h => ?_
    exact (Expr.has_of_mem_nodes h).operand (.unary operator)
  | .binary left operator right =>
    refine .of_mem_cons h fun h => ?_
    rcases List.mem_append.1 h with h | h
    · exact (Expr.has_of_mem_nodes h).operand (.binaryLeft operator right)
    · exact (Expr.has_of_mem_nodes h).operand (.binaryRight left operator)
  | .logical left operator right =>
    refine .of_mem_cons h fun h => ?_
    rcases List.mem_append.1 h with h | h
    · exact (Expr.has_of_mem_nodes h).operand (.logicalLeft operator right)
    · exact (Expr.has_of_mem_nodes h).operand (.logicalRight left operator)
  | .count operator target name hops =>
    refine .of_mem_cons h fun h => ?_
    exact (Expr.has_of_mem_nodes h).operand (.counted operator name hops)
  | .call callee paren args =>
    refine .of_mem_cons h fun h => ?_
    rcases List.mem_append.1 h with h | h
    · exact (Expr.has_of_mem_nodes h).operand (.callee paren args)
    · obtain ⟨before, part, after, heq, hpart⟩ := Expr.exists_has_of_mem_nodes h
      rw [heq]
      exact hpart.operand (.argument callee paren before after)
  | .group token inner =>
    refine .of_mem_cons h fun h => ?_
    exact (Expr.has_of_mem_nodes h).operand (.grouped token)
  | .get object name =>
    refine .of_mem_cons h fun h => ?_
    exact (Expr.has_of_mem_nodes h).operand (.getObject name)
  | .set object name value =>
    refine .of_mem_cons h fun h => ?_
    rcases List.mem_append.1 h with h | h
    · exact (Expr.has_of_mem_nodes h).operand (.setObject name value)
    · exact (Expr.has_of_mem_nodes h).operand (.setValue object name)

theorem Expr.exists_has_of_mem_nodes {es : List Expr} (h : Node.expr e ∈ Expr.nodesOfList es) :
    ∃ before part after, es = before ++ part :: after ∧ part.Has e := by
  match es with
  | [] => cases h
  | first :: rest =>
    rcases List.mem_append.1 h with h | h
    · exact ⟨[], first, rest, rfl, Expr.has_of_mem_nodes h⟩
    · obtain ⟨before, part, after, heq, hpart⟩ := Expr.exists_has_of_mem_nodes h
      exact ⟨first :: before, part, after, by rw [heq, List.cons_append], hpart⟩

end

theorem Node.mem_below_stmt {s : Stmt} {nodes : List Node}
    (h : Node.expr e ∈ Node.stmt s :: nodes) : Node.expr e ∈ nodes := by
  have hne : Node.expr e ≠ Node.stmt s := nofun
  exact List.mem_of_ne_of_mem hne h

/-- The expression stands in the statement or in one below it. -/
def Stmt.Has (s : Stmt) (e : Expr) : Prop :=
  ∃ (settings : List Setting) (slot : Slot) (operands : List Operand),
    s = settings.foldr Setting.fill (slot.fill (Operand.fillAll operands e))

theorem Expr.Has.slot {part : Expr} (h : part.Has e) (slot : Slot) : (slot.fill part).Has e := by
  obtain ⟨operands, rfl⟩ := h
  exact ⟨[], slot, operands, rfl⟩

theorem Stmt.Has.setting {s : Stmt} (h : s.Has e) (S : Setting) : (S.fill s).Has e := by
  obtain ⟨settings, slot, operands, rfl⟩ := h
  exact ⟨S :: settings, slot, operands, rfl⟩

theorem Expr.Has.of_optional {e? : Option Expr} (h : Node.expr e ∈ e?.toList.flatMap Expr.nodes) :
    ∃ part, e? = some part ∧ part.Has e := by
  cases e? with
  | none => cases h
  | some part =>
    rw [Option.toList_some, List.flatMap_singleton] at h
    exact ⟨part, rfl, Expr.has_of_mem_nodes h⟩

theorem Definition.exists_has_of_mem_nodes {ds : List Definition}
    (h : Node.expr e ∈ ds.flatMap Definition.nodes) :
    ∃ before token name part after, ds = before ++ ⟨token, name, some part⟩ :: after ∧
      Expr.Has part e := by
  obtain ⟨d, hd, hnode⟩ := List.mem_flatMap.1 h
  obtain ⟨before, after, rfl⟩ := List.append_of_mem hd
  obtain ⟨token, name, initial⟩ := d
  obtain ⟨part, rfl, hpart⟩ := Expr.Has.of_optional (Node.mem_below_stmt hnode)
  exact ⟨before, token, name, part, after, rfl, hpart⟩

theorem Stmt.mem_nodes_of_conditional {token : Token} {condition : Expr} {branch : Stmt}
    {arms : List Arm} {last : Option Stmt}
    (h : Node.expr e ∈ (Stmt.conditional token condition branch arms last).nodes) :
    Node.expr e ∈ condition.nodes ∨ Node.expr e ∈ branch.nodes ∨
      Node.expr e ∈ Arm.nodesOfList arms ∨ Node.expr e ∈ last.elim [] Stmt.nodes := by
  cases last <;> simpa [Stmt.nodes, or_assoc] using h

mutual

theorem Stmt.has_of_mem_nodes {s : Stmt} (h : Node.expr e ∈ s.nodes) : s.Has e := by
  match s with
  | .hole => cases h
  | .expression token value =>
    have h := Node.mem_below_stmt h
    exact (Expr.has_of_mem_nodes h).slot (.expression token)
  | .print token value =>
    have h := Node.mem_below_stmt h
    exact (Expr.has_of_mem_nodes h).slot (.print token)
  | .define ⟨token, name, initial⟩ =>
    have h := Node.mem_below_stmt h
    obtain ⟨part, rfl, hpart⟩ := Expr.Has.of_optional h
    exact hpart.slot (.initial token name)
  | .block token body =>
    have h := Node.mem_below_stmt h
    obtain ⟨before, s, after, heq, hs⟩ := Stmt.exists_has_of_mem_nodes h
    rw [heq]
    exact hs.setting (.block token before after)
  | .operation ⟨token, name, params, body⟩ =>
    have h := Node.mem_below_stmt h
    obtain ⟨before, s, after, heq, hs⟩ := Stmt.exists_has_of_mem_nodes h
    rw [heq]
    exact hs.setting (.operation token name params before after)
  | .conditional token condition branch arms last =>
    rcases Stmt.mem_nodes_of_conditional h with h | h | h | h
    · exact (Expr.has_of_mem_nodes h).slot (.tested token branch arms last)
    · exact (Stmt.has_of_mem_nodes h).setting (.branch token condition arms last)
    · obtain ⟨earlier, armToken, test, first, later, heq, harm⟩ := Arm.exists_has_of_mem_nodes h
      rw [heq]
      rcases harm with htest | hfirst
      · exact htest.slot (.armTested token condition branch earlier armToken first later last)
      · exact hfirst.setting (.armBranch token condition branch earlier armToken test later last)
    · match last with
      | none => cases h
      | some last =>
        exact (Stmt.has_of_mem_nodes h).setting (.otherwise token condition branch arms)
  | .arm ⟨token, condition, branch⟩ =>
    have h := Node.mem_below_stmt h
    rcases List.mem_append.1 h with h | h
    · exact (Expr.has_of_mem_nodes h).slot (.strayArm token branch)
    · exact (Stmt.has_of_mem_nodes h).setting (.strayArm token condition)
  | .loop token condition body =>
    have h := Node.mem_below_stmt h
    rcases List.mem_append.1 h with h | h
    · exact (Expr.has_of_mem_nodes h).slot (.loop token body)
    · exact (Stmt.has_of_mem_nodes h).setting (.loop token condition)
  | .return keyword value =>
    have h := Node.mem_below_stmt h
    obtain ⟨part, rfl, hpart⟩ := Expr.Has.of_optional h
    exact hpart.slot (.returned keyword)
  | .object token name methods =>
    have h := Node.mem_below_stmt h
    obtain ⟨earlier, opToken, opName, params, before, s, after, later, heq, hs⟩ :=
      Operation.exists_has_of_mem_nodes h
    rw [heq]
    exact hs.setting (.method token name earlier opToken opName params before after later)
  | .enum .. => cases List.mem_singleton.1 h
  | .form token name members =>
    have h := Node.mem_below_stmt h
    obtain ⟨before, memberToken, memberName, part, after, rfl, hpart⟩ :=
      Definition.exists_has_of_mem_nodes h
    exact hpart.slot (.member token name before memberToken memberName after)

theorem Stmt.exists_has_of_mem_nodes {ss : List Stmt} (h : Node.expr e ∈ Stmt.nodesOfList ss) :
    ∃ before s after, ss = before ++ s :: after ∧ Stmt.Has s e := by
  match ss with
  | [] => cases h
  | first :: rest =>
    rcases List.mem_append.1 h with h | h
    · exact ⟨[], first, rest, rfl, Stmt.has_of_mem_nodes h⟩
    · obtain ⟨before, s, after, heq, hs⟩ := Stmt.exists_has_of_mem_nodes h
      exact ⟨first :: before, s, after, by rw [heq, List.cons_append], hs⟩

theorem Operation.exists_has_of_mem_nodes {os : List Operation}
    (h : Node.expr e ∈ Operation.nodesOfList os) :
    ∃ earlier token name params before s after later,
      os = earlier ++ ⟨token, name, params, before ++ s :: after⟩ :: later ∧ Stmt.Has s e := by
  match os with
  | [] => cases h
  | ⟨token, name, params, body⟩ :: rest =>
    rcases List.mem_append.1 h with h | h
    · have h := Node.mem_below_stmt h
      obtain ⟨before, s, after, heq, hs⟩ := Stmt.exists_has_of_mem_nodes h
      exact ⟨[], token, name, params, before, s, after, rest, by rw [heq, List.nil_append], hs⟩
    · obtain ⟨earlier, token', name', params', before, s, after, later, heq, hs⟩ :=
        Operation.exists_has_of_mem_nodes h
      exact ⟨⟨token, name, params, body⟩ :: earlier, token', name', params', before, s, after,
        later, by rw [heq, List.cons_append], hs⟩

theorem Arm.exists_has_of_mem_nodes {as : List Arm} (h : Node.expr e ∈ Arm.nodesOfList as) :
    ∃ earlier token condition branch later, as = earlier ++ ⟨token, condition, branch⟩ :: later ∧
      (Expr.Has condition e ∨ Stmt.Has branch e) := by
  match as with
  | [] => cases h
  | ⟨token, condition, branch⟩ :: rest =>
    rcases List.mem_append.1 h with h | h
    · have h := Node.mem_below_stmt h
      refine ⟨[], token, condition, branch, rest, rfl, ?_⟩
      rcases List.mem_append.1 h with h | h
      · exact .inl (Expr.has_of_mem_nodes h)
      · exact .inr (Stmt.has_of_mem_nodes h)
    · obtain ⟨earlier, token', condition', branch', later, heq, harm⟩ :=
        Arm.exists_has_of_mem_nodes h
      exact ⟨⟨token, condition, branch⟩ :: earlier, token', condition', branch', later,
        by rw [heq, List.cons_append], harm⟩

end

theorem Program.exists_spot {p : Program} (h : Node.expr e ∈ p.nodes) :
    ∃ S : Spot, p = S.fill e := by
  obtain ⟨before, s, after, rfl, settings, slot, operands, rfl⟩ := Stmt.exists_has_of_mem_nodes h
  exact ⟨⟨operands, slot, before, settings, after⟩, rfl⟩

end Existence

end Treescript
