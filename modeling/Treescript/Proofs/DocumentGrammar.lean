import Treescript.Document.Reader

/-!
# The grammar of documents

Which documents are statements and expressions, said without a reader: by the fields that each type
of node has to have. A field that is missing counts as null, and null is neither a statement nor an
expression. The reader accepts exactly the documents of the grammar.
-/

namespace Treescript

def ExprType.name : ExprType → String
  | .literal => "Literal"
  | .variable => "Variable"
  | .assign => "Assign"
  | .unary => "Unary"
  | .binary => "Binary"
  | .logical => "Logical"
  | .count => "Count"
  | .call => "Call"
  | .grouping => "Grouping"
  | .self => "Self"
  | .get => "Get"
  | .set => "Set"
  | .parent => "Parent"
  | .global => "Global"

def StmtType.name : StmtType → String
  | .expression => "Expression"
  | .print => "Print"
  | .define => "Def"
  | .block => "Block"
  | .operation => "Op"
  | .conditional => "When"
  | .loop => "While"
  | .return => "Return"
  | .object => "Obj"
  | .enum => "Enum"
  | .form => "Form"

theorem ExprType.ofName?_eq_some_iff {word : String} {t : ExprType} :
    ExprType.ofName? word = some t ↔ word = t.name := by
  constructor
  · intro h
    unfold ExprType.ofName? at h
    split at h <;> cases h <;> rfl
  · rintro rfl
    cases t <;> rfl

theorem StmtType.ofName?_eq_some_iff {word : String} {t : StmtType} :
    StmtType.ofName? word = some t ↔ word = t.name := by
  constructor
  · intro h
    unfold StmtType.ofName? at h
    split at h <;> cases h <;> rfl
  · rintro rfl
    cases t <;> rfl

theorem ExprType.name_ne_empty (t : ExprType) : t.name ≠ "" := by
  cases t <;> decide

theorem StmtType.name_ne_empty (t : StmtType) : t.name ≠ "" := by
  cases t <;> decide

namespace Document

/-- What a mapping has under a key. -/
def under (fields : List (String × Document)) (key : String) : Document :=
  (fields.lookup key).getD .null

inductive Optionally (P : Document → Prop) : Document → Prop
  | missing : Optionally P .null
  | present {d : Document} (h : P d) : Optionally P d

inductive Listing (P : Document → Prop) : Document → Prop
  | missing : Listing P .null
  | list {items : List Document} (h : ∀ d ∈ items, P d) : Listing P (.list items)

inductive IsWord : Document → Prop
  | text {s : String} (h : s ≠ "") : IsWord (.text s)

inductive IsName : Document → Prop
  | text {s : String} (h : s ≠ "") : IsName (.text s)
  | int (n : Int64) : IsName (.int n)

inductive IsOperator (table : String → Option Operator) : Document → Prop
  | text {word : String} (h : (table word).isSome) : IsOperator table (.text word)

inductive IsLiteral : Document → Prop
  | null : IsLiteral .null
  | bool (b : Bool) : IsLiteral (.bool b)
  | int (n : Int64) : IsLiteral (.int n)
  | float (x : Float) : IsLiteral (.float x)
  | text (s : String) : IsLiteral (.text s)

mutual

inductive IsExpression : Document → Prop
  | node {fields : List (String × Document)} (t : ExprType)
    (type : fields.lookup "type" = some (.text t.name)) (h : HasExprFields fields t) :
    IsExpression (.mapping fields)

/-- The fields that an expression has to have, type by type. -/
inductive HasExprFields : List (String × Document) → ExprType → Prop
  | literal {fields} (value : IsLiteral (under fields "value")) : HasExprFields fields .literal
  | variable {fields} (name : IsName (under fields "name")) : HasExprFields fields .variable
  | assign {fields} (name : IsName (under fields "name"))
    (value : IsExpression (under fields "value")) : HasExprFields fields .assign
  | unary {fields} (operator : IsOperator Operator.unary? (under fields "operator"))
    (right : IsExpression (under fields "right")) : HasExprFields fields .unary
  | binary {fields} (operator : IsOperator Operator.binary? (under fields "operator"))
    (left : IsExpression (under fields "left")) (right : IsExpression (under fields "right")) :
    HasExprFields fields .binary
  | logical {fields} (operator : IsOperator Operator.logical? (under fields "operator"))
    (left : IsExpression (under fields "left")) (right : IsExpression (under fields "right")) :
    HasExprFields fields .logical
  | count {fields} (operator : IsOperator Operator.count? (under fields "operator"))
    (name : IsName (under fields "name")) : HasExprFields fields .count
  | call {fields} (callee : IsExpression (under fields "callee"))
    (args : Listing IsExpression (under fields "args")) : HasExprFields fields .call
  | grouping {fields} (inner : IsExpression (under fields "expression")) :
    HasExprFields fields .grouping
  | self {fields} : HasExprFields fields .self
  | get {fields} (object : IsExpression (under fields "object"))
    (name : IsName (under fields "name")) : HasExprFields fields .get
  | set {fields} (object : IsExpression (under fields "object"))
    (name : IsName (under fields "name")) (value : IsExpression (under fields "value")) :
    HasExprFields fields .set
  | parent {fields} (name : IsName (under fields "name")) : HasExprFields fields .parent
  | global {fields} (name : IsName (under fields "name")) : HasExprFields fields .global

end

structure IsDefinition (fields : List (String × Document)) : Prop where
  name : IsName (under fields "name")
  initial : Optionally IsExpression (under fields "initial")

/-- A member of a form is a definition, and may leave out saying so. -/
inductive IsMember : Document → Prop
  | node {fields : List (String × Document)}
    (type : fields.lookup "type" = none ∨ fields.lookup "type" = some (.text "Def"))
    (h : IsDefinition fields) : IsMember (.mapping fields)

mutual

inductive IsStatement : Document → Prop
  | node {fields : List (String × Document)} (t : StmtType)
    (type : fields.lookup "type" = some (.text t.name)) (h : HasStmtFields fields t) :
    IsStatement (.mapping fields)

/-- The fields that a statement has to have, type by type. -/
inductive HasStmtFields : List (String × Document) → StmtType → Prop
  | expression {fields} (value : IsExpression (under fields "expression")) :
    HasStmtFields fields .expression
  | print {fields} (value : IsExpression (under fields "expression")) :
    HasStmtFields fields .print
  | define {fields} (h : IsDefinition fields) : HasStmtFields fields .define
  | block {fields} (body : Listing IsStatement (under fields "statements")) :
    HasStmtFields fields .block
  | operation {fields} (h : IsOperation fields) : HasStmtFields fields .operation
  | conditional {fields} (condition : IsExpression (under fields "condition"))
    (branch : IsStatement (under fields "then")) (arms : Listing IsArm (under fields "ors"))
    (otherwise : Optionally IsStatement (under fields "else")) : HasStmtFields fields .conditional
  | loop {fields} (condition : IsExpression (under fields "condition"))
    (body : IsStatement (under fields "body")) : HasStmtFields fields .loop
  | return {fields} (value : Optionally IsExpression (under fields "value")) :
    HasStmtFields fields .return
  | object {fields} (name : IsName (under fields "name"))
    (methods : Listing IsMethod (under fields "methods")) : HasStmtFields fields .object
  | enum {fields} (name : IsName (under fields "name"))
    (elements : Listing IsWord (under fields "elements")) : HasStmtFields fields .enum
  | form {fields} (name : IsName (under fields "name"))
    (members : Listing IsMember (under fields "members")) : HasStmtFields fields .form

inductive IsOperation : List (String × Document) → Prop
  | mk {fields} (name : IsName (under fields "name"))
    (params : Listing IsWord (under fields "params"))
    (body : Listing IsStatement (under fields "body")) : IsOperation fields

/-- A method is an operation, and may leave out saying so. -/
inductive IsMethod : Document → Prop
  | node {fields : List (String × Document)}
    (type : fields.lookup "type" = none ∨ fields.lookup "type" = some (.text "Op"))
    (h : IsOperation fields) : IsMethod (.mapping fields)

/-- An arm may call itself anything. -/
inductive IsArm : Document → Prop
  | node {fields : List (String × Document)}
    (type : fields.lookup "type" = none ∨
      ∃ word, word ≠ "" ∧ fields.lookup "type" = some (.text word))
    (condition : IsExpression (under fields "condition"))
    (branch : IsStatement (under fields "branch")) : IsArm (.mapping fields)

end

theorem not_isExpression_null : ¬IsExpression .null := nofun

theorem not_isStatement_null : ¬IsStatement .null := nofun

/-- Whether the reading succeeds does not depend on the line, only on the document. -/
def Accepts {α : Type} (r : Reading α) (P : Prop) : Prop :=
  ∀ line, (∃ a line', r.run line = .ok (a, line')) ↔ P

namespace Accepts

variable {α β : Type} {P Q : Prop} {r : Reading α}

theorem congr (h : Accepts r P) (hiff : P ↔ Q) : Accepts r Q := fun line => (h line).trans hiff

protected theorem pure (a : α) : Accepts (pure a) True :=
  fun line => iff_of_true ⟨a, line, rfl⟩ trivial

protected theorem throw (i : Invalid) : Accepts (α := α) (throw i) False := by
  intro line
  apply iff_of_false
  · rintro ⟨a, line', h⟩
    cases h
  · exact id

theorem token (kind : TokenKind) (word : String) (literal : Literal) :
    Accepts (token kind word literal) True :=
  fun line => iff_of_true ⟨_, line, rfl⟩ trivial

protected theorem get : Accepts (get : Reading Int) True :=
  fun line => iff_of_true ⟨_, line, rfl⟩ trivial

protected theorem bind {k : α → Reading β} (h : Accepts r P) (hk : ∀ a, Accepts (k a) Q) :
    Accepts (r >>= k) (P ∧ Q) := by
  intro line
  rw [← h line, StateT.run_bind]
  constructor
  · rintro ⟨b, line', hrun⟩
    cases hr : r.run line with
    | error i =>
      rw [hr] at hrun
      cases hrun
    | ok result =>
      rw [hr] at hrun
      exact ⟨⟨result.1, result.2, rfl⟩, (hk result.1 result.2).1 ⟨b, line', hrun⟩⟩
  · rintro ⟨⟨a, line', hr⟩, hQ⟩
    obtain ⟨b, line'', hb⟩ := (hk a line').2 hQ
    refine ⟨b, line'', ?_⟩
    rw [hr]
    exact hb

/-- The first reading always succeeds. -/
theorem after {k : α → Reading β} (h : Accepts r True) (hk : ∀ a, Accepts (k a) Q) :
    Accepts (r >>= k) Q :=
  (h.bind hk).congr (by simp)

/-- The last reading always succeeds. -/
theorem ending {k : α → Reading β} (h : Accepts r P) (hk : ∀ a, Accepts (k a) True) :
    Accepts (r >>= k) P :=
  (h.bind hk).congr (by simp)

/-- Nothing comes after a fault. -/
theorem throw_bind (i : Invalid) (k : α → Reading β) : Accepts (throw i >>= k) False := by
  intro line
  apply iff_of_false
  · rintro ⟨b, line', h⟩
    cases h
  · exact id

protected theorem map (f : α → β) (h : Accepts r P) : Accepts (f <$> r) P := by
  rw [map_eq_pure_bind]
  exact h.ending fun a => .pure (f a)

end Accepts

theorem Optionally.of_ne_null {P : Document → Prop} {d : Document} (h : Optionally P d)
    (hnull : d ≠ .null) : P d := by
  cases h with
  | missing => exact absurd rfl hnull
  | present h => exact h

namespace Opened

variable {d : Document} (n : Opened d) (key : String)

theorem field?_cases :
    (n.field? key = none ∧ under n.fields key = .null) ∨
      ∃ c, n.field? key = some c ∧ c.1 = under n.fields key ∧ c.1 ≠ .null := by
  rw [field?, Document.field?, under]
  split
  · next h => simp [h]
  · next h => simp [h]
  · next c hnull h =>
    right
    exact ⟨_, rfl, by simp [h], hnull⟩

variable {β : Type} {Q : Prop}

theorem accepts_required {P : Document → Prop} (hnull : ¬P .null)
    {k : { c : Document // sizeOf c < sizeOf d } → Reading β}
    (hk : ∀ c, Accepts (k c) (P c.1 ∧ Q)) :
    Accepts (n.required key >>= k) (P (under n.fields key) ∧ Q) := by
  rw [required]
  obtain ⟨hfield, hunder⟩ | ⟨c, hfield, hunder, -⟩ := n.field?_cases key
  · rw [hfield, hunder]
    exact (Accepts.throw_bind _ _).congr (by simp [hnull])
  · rw [hfield, ← hunder]
    simp only [pure_bind]
    exact hk c

theorem accepts_items {P : Document → Prop} (fault : Fault)
    {k : { cs : List Document // sizeOf cs < sizeOf d } → Reading β}
    (hk : ∀ cs, Accepts (k cs) ((∀ c ∈ cs.1, P c) ∧ Q)) :
    Accepts (n.items key fault >>= k) (Listing P (under n.fields key) ∧ Q) := by
  have hlist : ∀ items, Listing P (.list items) ↔ ∀ c ∈ items, P c := by
    intro items
    constructor
    · rintro ⟨⟩
      assumption
    · exact .list
  rw [items]
  obtain ⟨hfield, hunder⟩ | ⟨⟨c, hlt⟩, hfield, hunder, hnull⟩ := n.field?_cases key
  · rw [hfield, hunder]
    simp only [pure_bind]
    exact (hk _).congr (by simp [Listing.missing])
  · rw [hfield, ← hunder]
    cases c with
    | list items =>
      simp only [pure_bind]
      exact (hk _).congr (by simp [hlist])
    | null => exact absurd rfl hnull
    | _ =>
      refine (Accepts.throw_bind _ _).congr (iff_of_false id ?_)
      rintro ⟨⟨⟩, -⟩

theorem accepts_name : Accepts (n.name key) (IsName (under n.fields key)) := by
  rw [name]
  obtain ⟨hfield, hunder⟩ | ⟨⟨c, hlt⟩, hfield, hunder, hnull⟩ := n.field?_cases key
  · rw [hfield, hunder]
    exact (Accepts.throw _).congr (iff_of_false id nofun)
  · rw [hfield, ← hunder]
    cases c with
    | text s =>
      by_cases hs : s = ""
      · simp only [if_pos hs]
        refine (Accepts.throw _).congr (iff_of_false id ?_)
        rintro ⟨h⟩
        exact h hs
      · simp only [if_neg hs]
        exact (Accepts.token _ _ _).congr (iff_of_true trivial (.text hs))
    | int i => exact (Accepts.token _ _ _).congr (iff_of_true trivial (.int i))
    | null => exact absurd rfl hnull
    | _ => exact (Accepts.throw _).congr (iff_of_false id nofun)

theorem accepts_operator (table : String → Option Operator) (hempty : table "" = none) :
    Accepts (n.operator table) (IsOperator table (under n.fields "operator")) := by
  rw [operator]
  obtain ⟨hfield, hunder⟩ | ⟨⟨c, hlt⟩, hfield, hunder, hnull⟩ := n.field?_cases "operator"
  · simp only [hfield, hunder, hempty]
    exact (Accepts.throw _).congr (iff_of_false id nofun)
  · simp only [hfield, ← hunder]
    cases c with
    | text word =>
      dsimp only
      cases hword : table word with
      | none =>
        refine (Accepts.throw _).congr (iff_of_false id ?_)
        rintro ⟨h⟩
        simp [hword] at h
      | some o => exact (Accepts.token _ _ _).congr (iff_of_true trivial (.text (by simp [hword])))
    | null => exact absurd rfl hnull
    | _ =>
      simp only [hempty]
      exact (Accepts.throw _).congr (iff_of_false id nofun)

theorem accepts_nameList (items : List Document) (index : Nat) :
    Accepts (n.nameList key items index) (∀ c ∈ items, IsWord c) := by
  induction items generalizing index with
  | nil => exact (Accepts.pure _).congr (by simp)
  | cons c rest ih =>
    cases c with
    | text s =>
      rw [nameList, List.forall_mem_cons]
      by_cases hs : s = ""
      · rw [if_pos hs]
        refine (Accepts.throw_bind _ _).congr (iff_of_false id ?_)
        rintro ⟨⟨h⟩, -⟩
        exact h hs
      · rw [if_neg hs]
        have hrest := (Accepts.token .identifier s .null).after fun first =>
          (ih (index + 1)).ending fun others => Accepts.pure (first :: others)
        exact hrest.congr (by simp [IsWord.text hs])
    | _ =>
      refine (Accepts.throw _).congr (iff_of_false id fun h => ?_)
      cases h _ List.mem_cons_self

theorem accepts_names : Accepts (n.names key) (Listing IsWord (under n.fields key)) := by
  have h := n.accepts_items (Q := True) (P := IsWord) key (.notNames key) fun cs =>
    (n.accepts_nameList key cs.1 0).congr (by simp)
  exact h.congr (by simp)

theorem accepts_literal : Accepts n.literal (IsLiteral (under n.fields "value")) := by
  have hlit : ∀ (kind : TokenKind) (word : String) (literal value : Literal),
      Accepts (do return Expr.literal (← token kind word literal) value) True :=
    fun kind word literal value => (Accepts.token _ _ _).after fun t => .pure (Expr.literal t value)
  rw [literal]
  obtain ⟨hfield, hunder⟩ | ⟨⟨c, hlt⟩, hfield, hunder, hnull⟩ := n.field?_cases "value"
  · rw [hfield, hunder]
    exact (hlit _ _ _ _).congr (iff_of_true trivial .null)
  · rw [hfield, ← hunder]
    cases c with
    | bool b =>
      cases b <;> exact (hlit _ _ _ _).congr (iff_of_true trivial (.bool _))
    | int i => exact (hlit _ _ _ _).congr (iff_of_true trivial (.int i))
    | float x => exact (hlit _ _ _ _).congr (iff_of_true trivial (.float x))
    | text s => exact (hlit _ _ _ _).congr (iff_of_true trivial (.text s))
    | null => exact absurd rfl hnull
    | _ => exact (Accepts.throw _).congr (iff_of_false id nofun)

end Opened

/-- The type of a node: the one it gives itself, or else the one that its position implies. -/
inductive IsTyped (implied : Option String) (fields : List (String × Document)) : String → Prop
  | given {word : String} (h : word ≠ "") (type : fields.lookup "type" = some (.text word)) :
    IsTyped implied fields word
  | implied {word : String} (h : word ≠ "") (type : fields.lookup "type" = none)
    (himplied : implied = some word) : IsTyped implied fields word

/-- The word that the reader takes for the type of a node, empty if there is none. -/
def typeWord (implied : Option String) (fields : List (String × Document)) : String :=
  match fields.lookup "type" with
  | none => implied.getD ""
  | some (text s) => s
  | some _ => ""

theorem isTyped_iff {implied : Option String} {fields : List (String × Document)} {word : String} :
    IsTyped implied fields word ↔
      typeWord implied fields ≠ "" ∧ word = typeWord implied fields := by
  constructor
  · rintro (⟨h, htype⟩ | ⟨h, htype, rfl⟩)
    · simpa [typeWord, htype] using h
    · simpa [typeWord, htype] using h
  · rintro ⟨h, rfl⟩
    cases htype : fields.lookup "type" with
    | none =>
      refine .implied h htype ?_
      cases implied with
      | none => simp [typeWord, htype] at h
      | some word => simp [typeWord, htype]
    | some c =>
      cases c with
      | text s => exact .given h (by simp [typeWord, htype])
      | _ => simp [typeWord, htype] at h

/-- The line that a node stands on, if its fields do not say otherwise the one read last. -/
def lineOf (fields : List (String × Document)) (line : Int) : Int :=
  match fields.lookup "line" with
  | some (int n) => n.toInt
  | _ => line

theorem run_openAs_mapping (implied : Option String) (fields : List (String × Document))
    (path : Path) (line : Int) :
    (openAs implied (.mapping fields) path).run line =
      if typeWord implied fields = "" then .error ⟨path, none, .noType⟩
      else .ok (⟨fields, typeWord implied fields, path, rfl⟩, lineOf fields line) := by
  change StateT.run (if typeWord implied fields = "" then throw _ else _) line = _
  by_cases h : typeWord implied fields = ""
  · rw [if_pos h, if_pos h]
    rfl
  · rw [if_neg h, if_neg h, lineOf]
    cases fields.lookup "line" with
    | none => rfl
    | some c => cases c <;> rfl

theorem accepts_openAs {β : Type} {implied : Option String} {d : Document} {path : Path}
    {k : Opened d → Reading β} {P : List (String × Document) → String → Prop}
    (hk : ∀ n : Opened d, Accepts (k n) (P n.fields n.type)) :
    Accepts (openAs implied d path >>= k)
      (∃ fields word, d = .mapping fields ∧ IsTyped implied fields word ∧ P fields word) := by
  cases d with
  | mapping fields =>
    have hiff : (∃ fields' word, mapping fields = .mapping fields' ∧ IsTyped implied fields' word ∧
        P fields' word) ↔ typeWord implied fields ≠ "" ∧ P fields (typeWord implied fields) := by
      simp [isTyped_iff, and_assoc]
    intro line
    rw [hiff, StateT.run_bind, run_openAs_mapping]
    by_cases h : typeWord implied fields = ""
    · rw [if_pos h]
      apply iff_of_false
      · rintro ⟨b, line', hrun⟩
        cases hrun
      · exact fun hword => hword.1 h
    · rw [if_neg h]
      exact (hk _ _).trans (by simp [h])
  | _ =>
    refine (Accepts.throw_bind _ _).congr (iff_of_false id ?_)
    rintro ⟨fields, word, hd, -⟩
    cases hd

mutual

theorem expression_accepts (d : Document) (path : Path) :
    Accepts (expression d path) d.IsExpression := by
  have hnode : (∃ fields word, d = .mapping fields ∧ IsTyped none fields word ∧
      ∃ t, ExprType.ofName? word = some t ∧ HasExprFields fields t) ↔ d.IsExpression := by
    constructor
    · rintro ⟨fields, word, rfl, ⟨-, htype⟩ | ⟨-, -, ⟨⟩⟩, t, ht, h⟩
      obtain rfl := ExprType.ofName?_eq_some_iff.1 ht
      exact .node t htype h
    · rintro ⟨t, htype, h⟩
      exact ⟨_, t.name, rfl, .given t.name_ne_empty htype, t,
        ExprType.ofName?_eq_some_iff.2 rfl, h⟩
  rw [expression]
  refine (accepts_openAs fun n => ?_).congr hnode
  have hname : Accepts (n.name "name") _ := n.accepts_name "name"
  have hrequired : ∀ {α : Type} (key : String) {k : Expr → Reading α} {Q : Prop},
      (∀ e, Accepts (k e) Q) → Accepts
        (n.required key >>= fun c => expression c.1 (n.child key) >>= k)
        (IsExpression (under n.fields key) ∧ Q) := fun key _ _ hk =>
    n.accepts_required key not_isExpression_null fun c => (expression_accepts c.1 _).bind hk
  cases ht : ExprType.ofName? n.type with
  | none => exact (Accepts.throw _).congr (by simp)
  | some t =>
    -- what is left is to read the fields of a node of this type
    refine Accepts.congr ?_ (show HasExprFields n.fields t ↔ _ by simp)
    cases t with
    | literal => exact n.accepts_literal.congr ⟨.literal, fun | .literal value => value⟩
    | «variable» =>
      exact (hname.ending fun _ => .pure _).congr ⟨.variable, fun | .variable name => name⟩
    | parent => exact (hname.ending fun _ => .pure _).congr ⟨.parent, fun | .parent name => name⟩
    | global => exact (hname.ending fun _ => .pure _).congr ⟨.global, fun | .global name => name⟩
    | self =>
      exact ((Accepts.token _ _ _).ending fun _ => .pure _).congr (iff_of_true trivial .self)
    | assign =>
      exact (hname.bind fun _ => hrequired "value" fun _ => .pure _).congr
        ⟨fun ⟨name, value, _⟩ => .assign name value,
          fun | .assign name value => ⟨name, value, trivial⟩⟩
    | unary =>
      exact ((n.accepts_operator _ rfl).bind fun _ => hrequired "right" fun _ => .pure _).congr
        ⟨fun ⟨operator, right, _⟩ => .unary operator right,
          fun | .unary operator right => ⟨operator, right, trivial⟩⟩
    | binary =>
      exact ((n.accepts_operator _ rfl).bind fun _ => hrequired "left" fun _ =>
        hrequired "right" fun _ => .pure _).congr
        ⟨fun ⟨operator, left, right, _⟩ => .binary operator left right,
          fun | .binary operator left right => ⟨operator, left, right, trivial⟩⟩
    | logical =>
      exact ((n.accepts_operator _ rfl).bind fun _ => hrequired "left" fun _ =>
        hrequired "right" fun _ => .pure _).congr
        ⟨fun ⟨operator, left, right, _⟩ => .logical operator left right,
          fun | .logical operator left right => ⟨operator, left, right, trivial⟩⟩
    | count =>
      exact ((n.accepts_operator _ rfl).bind fun _ => hname.ending fun _ => .pure _).congr
        ⟨fun ⟨operator, name⟩ => .count operator name,
          fun | .count operator name => ⟨operator, name⟩⟩
    | call =>
      exact (hrequired "callee" fun _ => n.accepts_items "args" _ fun cs =>
        (expressions_accept cs.1 _ 0).bind fun _ => (Accepts.token _ _ _).ending fun _ =>
          .pure _).congr
        ⟨fun ⟨callee, args, _⟩ => .call callee args,
          fun | .call callee args => ⟨callee, args, trivial⟩⟩
    | grouping =>
      exact ((Accepts.token _ _ _).after fun _ => hrequired "expression" fun _ => .pure _).congr
        ⟨fun ⟨inner, _⟩ => .grouping inner, fun | .grouping inner => ⟨inner, trivial⟩⟩
    | get =>
      exact (hrequired "object" fun _ => hname.ending fun _ => .pure _).congr
        ⟨fun ⟨object, name⟩ => .get object name, fun | .get object name => ⟨object, name⟩⟩
    | set =>
      exact (hrequired "object" fun _ => hname.bind fun _ =>
        hrequired "value" fun _ => .pure _).congr
        ⟨fun ⟨object, name, value, _⟩ => .set object name value,
          fun | .set object name value => ⟨object, name, value, trivial⟩⟩
termination_by sizeOf d

theorem expressions_accept (ds : List Document) (path : Path) (index : Nat) :
    Accepts (expressions ds path index) (∀ d ∈ ds, d.IsExpression) := by
  match ds with
  | [] =>
    rw [expressions]
    exact (Accepts.pure _).congr (by simp)
  | d :: rest =>
    rw [expressions, List.forall_mem_cons]
    exact (expression_accepts d _).bind fun _ =>
      (expressions_accept rest path _).ending fun _ => .pure _
termination_by sizeOf ds

end

namespace Opened

variable {d : Document} (n : Opened d) (key : String)

theorem accepts_requiredExpr :
    Accepts (n.requiredExpr key) (IsExpression (under n.fields key)) := by
  have h := n.accepts_required key (Q := True) not_isExpression_null fun c =>
    (expression_accepts c.1 (n.child key)).congr (by simp)
  exact h.congr (by simp)

theorem accepts_optionalExpr :
    Accepts (n.optionalExpr key) (Optionally IsExpression (under n.fields key)) := by
  rw [optionalExpr]
  obtain ⟨hfield, hunder⟩ | ⟨c, hfield, hunder, hnull⟩ := n.field?_cases key
  · rw [hfield, hunder]
    exact (Accepts.pure _).congr (iff_of_true trivial .missing)
  · rw [hfield, ← hunder]
    exact ((expression_accepts c.1 _).map some).congr ⟨.present, (·.of_ne_null hnull)⟩

theorem accepts_definition : Accepts n.definition (IsDefinition n.fields) :=
  ((Accepts.token _ _ _).after fun _ => (n.accepts_name "name").bind fun _ =>
    (n.accepts_optionalExpr "initial").ending fun _ => .pure _).congr
    ⟨fun ⟨name, initial⟩ => ⟨name, initial⟩, fun ⟨name, initial⟩ => ⟨name, initial⟩⟩

end Opened

/-- The type of an item whose position fixes it. -/
theorem isTyped_fixed {fields : List (String × Document)} {word : String} (h : word ≠ "") :
    IsTyped (some word) fields word ↔
      fields.lookup "type" = none ∨ fields.lookup "type" = some (.text word) := by
  constructor
  · rintro (⟨-, htype⟩ | ⟨-, htype, -⟩)
    · exact .inr htype
    · exact .inl htype
  · rintro (htype | htype)
    · exact .implied h htype rfl
    · exact .given h htype

theorem Accepts.guarded {β : Type} {c P Q : Prop} [Decidable c] {i : Invalid}
    {rest : Unit → Reading β} (hc : ¬c ↔ Q) (h : Accepts (rest ()) P) :
    Accepts (if c then throw i >>= rest else rest ()) (Q ∧ P) := by
  rw [← hc]
  by_cases hc : c
  · rw [if_pos hc]
    exact (Accepts.throw_bind _ _).congr (by simp [hc])
  · rw [if_neg hc]
    exact h.congr (by simp [hc])

theorem members_accept (path : Path) (ds : List Document) (index : Nat) :
    Accepts (members path ds index) (∀ d ∈ ds, d.IsMember) := by
  induction ds generalizing index with
  | nil => exact (Accepts.pure _).congr (by simp)
  | cons d rest ih =>
    rw [members, List.forall_mem_cons]
    refine (accepts_openAs (P := fun fields word => word = "Def" ∧ IsDefinition fields ∧
      ∀ d ∈ rest, d.IsMember) fun n => .guarded (by simp) ?_).congr ?_
    · exact n.accepts_definition.bind fun _ => (ih _).ending fun _ => .pure _
    · constructor
      · rintro ⟨fields, _, rfl, htype, rfl, h, hrest⟩
        exact ⟨.node ((isTyped_fixed (by decide)).1 htype) h, hrest⟩
      · rintro ⟨⟨htype, h⟩, hrest⟩
        exact ⟨_, "Def", rfl, (isTyped_fixed (by decide)).2 htype, rfl, h, hrest⟩

mutual

theorem statement_accepts (d : Document) (path : Path) :
    Accepts (statement d path) d.IsStatement := by
  have hnode : (∃ fields word, d = .mapping fields ∧ IsTyped none fields word ∧
      ∃ t, StmtType.ofName? word = some t ∧ HasStmtFields fields t) ↔ d.IsStatement := by
    constructor
    · rintro ⟨fields, word, rfl, ⟨-, htype⟩ | ⟨-, -, ⟨⟩⟩, t, ht, h⟩
      obtain rfl := StmtType.ofName?_eq_some_iff.1 ht
      exact .node t htype h
    · rintro ⟨t, htype, h⟩
      exact ⟨_, t.name, rfl, .given t.name_ne_empty htype, t,
        StmtType.ofName?_eq_some_iff.2 rfl, h⟩
  rw [statement]
  refine (accepts_openAs fun n => ?_).congr hnode
  have hname : Accepts (n.name "name") _ := n.accepts_name "name"
  have hrequired : ∀ {α : Type} (key : String) {k : Stmt → Reading α} {Q : Prop},
      (∀ s, Accepts (k s) Q) → Accepts
        (n.required key >>= fun c => statement c.1 (n.child key) >>= k)
        (IsStatement (under n.fields key) ∧ Q) := fun key _ _ hk =>
    n.accepts_required key not_isStatement_null fun c => (statement_accepts c.1 _).bind hk
  cases ht : StmtType.ofName? n.type with
  | none => exact (Accepts.throw _).congr (by simp)
  | some t =>
    refine Accepts.congr ?_ (show HasStmtFields n.fields t ↔ _ by simp)
    cases t with
    | expression =>
      exact (Accepts.get.after fun _ =>
        (n.accepts_requiredExpr "expression").ending fun _ => .pure _).congr
        ⟨.expression, fun | .expression value => value⟩
    | print =>
      exact ((Accepts.token _ _ _).after fun _ =>
        (n.accepts_requiredExpr "expression").ending fun _ => .pure _).congr
        ⟨.print, fun | .print value => value⟩
    | define => exact (n.accepts_definition.map _).congr ⟨.define, fun | .define h => h⟩
    | block =>
      exact ((Accepts.token _ _ _).after fun _ => n.accepts_items "statements" _ fun cs =>
        (statements_accept cs.1 _ 0).bind fun _ => .pure _).congr
        ⟨fun ⟨body, _⟩ => .block body, fun | .block body => ⟨body, trivial⟩⟩
    | operation =>
      exact ((operation_accepts d n).map _).congr ⟨.operation, fun | .operation h => h⟩
    | conditional =>
      have hotherwise : ∀ token condition branch arms, Accepts
          (match n.field? "else" with
            | none => pure (.conditional token condition branch arms none)
            | some ⟨c, _⟩ => do
              return .conditional token condition branch arms
                (some (← statement c (n.child "else"))) : Reading Stmt)
          (Optionally IsStatement (under n.fields "else")) := by
        intro token condition branch arms
        obtain ⟨hfield, hunder⟩ | ⟨c, hfield, hunder, hnull⟩ := n.field?_cases "else"
        · rw [hfield, hunder]
          exact (Accepts.pure _).congr (iff_of_true trivial .missing)
        · rw [hfield, ← hunder]
          exact ((statement_accepts c.1 _).ending fun _ => .pure _).congr
            ⟨.present, (·.of_ne_null hnull)⟩
      exact ((Accepts.token _ _ _).after fun _ => (n.accepts_requiredExpr "condition").bind fun _ =>
        hrequired "then" fun _ => n.accepts_items "ors" _ fun cs =>
          (arms_accept cs.1 _ 0).bind fun _ => hotherwise _ _ _ _).congr
        ⟨fun ⟨condition, branch, arms, last⟩ => .conditional condition branch arms last,
          fun | .conditional condition branch arms last => ⟨condition, branch, arms, last⟩⟩
    | loop =>
      exact ((Accepts.token _ _ _).after fun _ => (n.accepts_requiredExpr "condition").bind fun _ =>
        hrequired "body" fun _ => .pure _).congr
        ⟨fun ⟨condition, body, _⟩ => .loop condition body,
          fun | .loop condition body => ⟨condition, body, trivial⟩⟩
    | «return» =>
      exact ((Accepts.token _ _ _).after fun _ =>
        (n.accepts_optionalExpr "value").ending fun _ => .pure _).congr
        ⟨.return, fun | .return value => value⟩
    | object =>
      exact ((Accepts.token _ _ _).after fun _ => hname.bind fun _ =>
        n.accepts_items "methods" _ fun cs => (methods_accept cs.1 _ 0).bind fun _ => .pure _).congr
        ⟨fun ⟨name, methods, _⟩ => .object name methods,
          fun | .object name methods => ⟨name, methods, trivial⟩⟩
    | «enum» =>
      exact ((Accepts.token _ _ _).after fun _ => hname.bind fun _ =>
        (n.accepts_names "elements").ending fun _ => .pure _).congr
        ⟨fun ⟨name, elements⟩ => .enum name elements, fun | .enum name elements => ⟨name, elements⟩⟩
    | form =>
      exact ((Accepts.token _ _ _).after fun _ => hname.bind fun _ =>
        n.accepts_items "members" _ fun cs => (members_accept _ cs.1 0).bind fun _ => .pure _).congr
        ⟨fun ⟨name, members, _⟩ => .form name members,
          fun | .form name members => ⟨name, members, trivial⟩⟩
termination_by 2 * sizeOf d + 1
decreasing_by all_goals omega

theorem operation_accepts (d : Document) (n : Opened d) :
    Accepts (operation d n) (IsOperation n.fields) := by
  rw [operation]
  exact ((Accepts.token _ _ _).after fun _ => (n.accepts_name "name").bind fun _ =>
    (n.accepts_names "params").bind fun _ => n.accepts_items "body" _ fun cs =>
      (statements_accept cs.1 _ 0).bind fun _ => .pure _).congr
    ⟨fun ⟨name, params, body, _⟩ => .mk name params body,
      fun | .mk name params body => ⟨name, params, body, trivial⟩⟩
termination_by 2 * sizeOf d
decreasing_by all_goals omega

theorem statements_accept (ds : List Document) (path : Path) (index : Nat) :
    Accepts (statements ds path index) (∀ d ∈ ds, d.IsStatement) := by
  match ds with
  | [] =>
    rw [statements]
    exact (Accepts.pure _).congr (by simp)
  | d :: rest =>
    rw [statements, List.forall_mem_cons]
    exact (statement_accepts d _).bind fun _ =>
      (statements_accept rest path _).ending fun _ => .pure _
termination_by 2 * sizeOf ds
decreasing_by all_goals (rw [List.cons.sizeOf_spec]; omega)

theorem arms_accept (ds : List Document) (path : Path) (index : Nat) :
    Accepts (arms ds path index) (∀ d ∈ ds, d.IsArm) := by
  match ds with
  | [] =>
    rw [arms]
    exact (Accepts.pure _).congr (by simp)
  | d :: rest =>
    rw [arms, List.forall_mem_cons]
    refine (accepts_openAs (P := fun fields _ => IsExpression (under fields "condition") ∧
      IsStatement (under fields "branch") ∧ ∀ d ∈ rest, d.IsArm) fun n => ?_).congr ?_
    · exact (Accepts.token _ _ _).after fun _ => (n.accepts_requiredExpr "condition").bind fun _ =>
        n.accepts_required "branch" not_isStatement_null fun c =>
          (statement_accepts c.1 _).bind fun _ => (arms_accept rest path _).ending fun _ => .pure _
    · constructor
      · rintro ⟨fields, word, rfl, htype, condition, branch, hrest⟩
        refine ⟨.node ?_ condition branch, hrest⟩
        obtain ⟨hword, htype⟩ | ⟨-, htype, -⟩ := htype
        · exact .inr ⟨word, hword, htype⟩
        · exact .inl htype
      · rintro ⟨⟨htype, condition, branch⟩, hrest⟩
        obtain htype | ⟨word, hword, htype⟩ := htype
        · exact ⟨_, "Or", rfl, .implied (by decide) htype rfl, condition, branch, hrest⟩
        · exact ⟨_, word, rfl, .given hword htype, condition, branch, hrest⟩
termination_by 2 * sizeOf ds
decreasing_by all_goals (rw [List.cons.sizeOf_spec]; omega)

theorem methods_accept (ds : List Document) (path : Path) (index : Nat) :
    Accepts (methods ds path index) (∀ d ∈ ds, d.IsMethod) := by
  match ds with
  | [] =>
    rw [methods]
    exact (Accepts.pure _).congr (by simp)
  | d :: rest =>
    rw [methods, List.forall_mem_cons]
    refine (accepts_openAs (P := fun fields word => word = "Op" ∧ IsOperation fields ∧
      ∀ d ∈ rest, d.IsMethod) fun n => .guarded (by simp) ?_).congr ?_
    · exact (operation_accepts d n).bind fun _ =>
        (methods_accept rest path _).ending fun _ => .pure _
    · constructor
      · rintro ⟨fields, _, rfl, htype, rfl, h, hrest⟩
        exact ⟨.node ((isTyped_fixed (by decide)).1 htype) h, hrest⟩
      · rintro ⟨⟨htype, h⟩, hrest⟩
        exact ⟨_, "Op", rfl, (isTyped_fixed (by decide)).2 htype, rfl, h, hrest⟩
termination_by 2 * sizeOf ds
decreasing_by all_goals (rw [List.cons.sizeOf_spec]; omega)

end

/-- A document is read as a statement exactly if the grammar has it, whatever the line and the path,
and a program exactly if all its documents are statements. -/
theorem read_iff_grammatical :
    (∀ (d : Document) (path : Path) (line : Int),
      (∃ s line', (statement d path).run line = .ok (s, line')) ↔ d.IsStatement) ∧
    ∀ ds : List Document, (∃ p, program ds = .ok p) ↔ ∀ d ∈ ds, d.IsStatement := by
  refine ⟨statement_accepts, fun ds => ?_⟩
  rw [← statements_accept ds [.key "statements"] 0 1, program, StateT.run'_eq]
  cases (statements ds [.key "statements"] 0).run 1 with
  | error i => exact iff_of_false nofun nofun
  | ok result => exact iff_of_true ⟨result.1, rfl⟩ ⟨result.1, result.2, rfl⟩

end Document

end Treescript
