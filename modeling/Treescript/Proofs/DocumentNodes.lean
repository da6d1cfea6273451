import Treescript.Proofs.DocumentGrammar

/-!
# The nodes of a document

A document holds further nodes in its fields. Which fields a node has, in which form and in which
order, depends on its type and on the position it stands in. Going through them in this order lists
the nodes of a document, each with the path that leads to it. The first fault of a document is
described along the same lines: it is a fault of one node itself, and what comes before that node is
as it should be.
-/

namespace Treescript

namespace Document

/-- What a node is read as. -/
inductive Position where
  | expression | statement | arm | method | member

/-- A field of a node and what it has to hold. -/
inductive Slot where
  | name (key : String)
  | words (key : String)
  | operator (table : String → Option Operator)
  | literal
  | required (key : String) (position : Position)
  | optional (key : String) (position : Position)
  | items (key : String) (position : Position)

end Document

open Document

/-- The fields of an expression, in the order in which they are read. -/
def ExprType.slots : ExprType → List Slot
  | .literal => [.literal]
  | .variable | .parent | .global => [.name "name"]
  | .assign => [.name "name", .required "value" .expression]
  | .unary => [.operator Operator.unary?, .required "right" .expression]
  | .binary =>
    [.operator Operator.binary?, .required "left" .expression, .required "right" .expression]
  | .logical =>
    [.operator Operator.logical?, .required "left" .expression, .required "right" .expression]
  | .count => [.operator Operator.count?, .name "name"]
  | .call => [.required "callee" .expression, .items "args" .expression]
  | .grouping => [.required "expression" .expression]
  | .self => []
  | .get => [.required "object" .expression, .name "name"]
  | .set => [.required "object" .expression, .name "name", .required "value" .expression]

/-- The fields of a statement, in the order in which they are read. -/
def StmtType.slots : StmtType → List Slot
  | .expression | .print => [.required "expression" .expression]
  | .define => [.name "name", .optional "initial" .expression]
  | .block => [.items "statements" .statement]
  | .operation => [.name "name", .words "params", .items "body" .statement]
  | .conditional =>
    [.required "condition" .expression, .required "then" .statement, .items "ors" .arm,
      .optional "else" .statement]
  | .loop => [.required "condition" .expression, .required "body" .statement]
  | .return => [.optional "value" .expression]
  | .object => [.name "name", .items "methods" .method]
  | .enum => [.name "name", .words "elements"]
  | .form => [.name "name", .items "members" .member]

namespace Document

namespace Position

/-- The type of a node that does not give itself one. -/
def implied? : Position → Option String
  | expression | statement => none
  | arm => some "Or"
  | method => some "Op"
  | member => some "Def"

/-- The fields that a node has in this position, if its type is allowed there. -/
def slots? (fields : List (String × Document)) : Position → Option (List Slot)
  | expression => (ExprType.ofName? (typeWord none fields)).map ExprType.slots
  | statement => (StmtType.ofName? (typeWord none fields)).map StmtType.slots
  | arm =>
    if typeWord (some "Or") fields = "" then none
    else some [.required "condition" .expression, .required "branch" .statement]
  | method => if typeWord (some "Op") fields = "Op" then some StmtType.operation.slots else none
  | member => if typeWord (some "Def") fields = "Def" then some StmtType.define.slots else none

/-- The fault of a node whose type is not allowed here. An arm may have any type. -/
def misfit? : Position → Option Fault
  | expression => some .notExpression
  | statement => some .notStatement
  | arm => none
  | method => some .notOperation
  | member => some .notDefinition

/-- The fault of a field that should list nodes for this position. -/
def listFault (key : String) : Position → Fault
  | expression => .notExpressions key
  | statement => .notStatements key
  | arm | method | member => .notList key

def Valid : Position → Document → Prop
  | expression => IsExpression
  | statement => IsStatement
  | arm => IsArm
  | method => IsMethod
  | member => IsMember

end Position

/-- A document in its position, and the path that leads to it. -/
structure Spot where
  path : Path
  position : Position
  document : Document

def Spot.Valid (s : Spot) : Prop := s.position.Valid s.document

namespace Slot

def key : Slot → String
  | name key | words key | required key _ | optional key _ | items key _ => key
  | operator _ => "operator"
  | literal => "value"

variable (fields : List (String × Document))

/-- The field is as it should be, with all that is nested in it. -/
def Sound : Slot → Prop
  | name key => IsName (under fields key)
  | words key => Listing IsWord (under fields key)
  | operator table => IsOperator table (under fields "operator")
  | literal => IsLiteral (under fields "value")
  | required key position => position.Valid (under fields key)
  | optional key position => Optionally position.Valid (under fields key)
  | items key position => Listing position.Valid (under fields key)

/-- The nodes that stand in the field of a node. -/
def children (path : Path) : Slot → List Spot
  | required key position | optional key position =>
    match under fields key with
    | .null => []
    | d => [⟨path ++ [.key key], position, d⟩]
  | items key position =>
    match under fields key with
    | .list ds => ds.mapIdx fun i d => ⟨path ++ [.key key, .index i], position, d⟩
    | _ => []
  | name _ | words _ | operator _ | literal => []

/-- The word that stands for the operator. -/
def operatorWord : Document → String
  | .text word => word
  | _ => ""

/-- The field itself is at fault, not a node that stands in it. -/
inductive Faulty : Slot → Fault → Prop
  | missingName {key : String} (h : under fields key = .null) : Faulty (.name key) (.missing key)
  | emptyName {key : String} (h : under fields key = .text "") :
    Faulty (.name key) (.emptyName key)
  | notName {key : String} (hnull : under fields key ≠ .null) (htext : under fields key ≠ .text "")
    (h : ¬IsName (under fields key)) :
    Faulty (.name key) (.notName key (under fields key).typeName)
  | notNames {key : String} (h : ¬Listing (fun _ => True) (under fields key)) :
    Faulty (.words key) (.notNames key)
  | notNameAt {key : String} {before after : List Document} {d : Document}
    (hlist : under fields key = .list (before ++ d :: after)) (hbefore : ∀ c ∈ before, IsWord c)
    (h : ¬IsWord d) : Faulty (.words key) (.notNameAt key before.length)
  | unknownOperator {table : String → Option Operator}
    (h : ¬IsOperator table (under fields "operator")) :
    Faulty (.operator table) (.unknownOperator (operatorWord (under fields "operator")))
  | unsupportedLiteral (h : ¬IsLiteral (under fields "value")) :
    Faulty .literal (.unsupportedLiteral (under fields "value").typeName)
  | missing {key : String} {position : Position} (h : under fields key = .null) :
    Faulty (.required key position) (.missing key)
  | notList {key : String} {position : Position}
    (h : ¬Listing (fun _ => True) (under fields key)) :
    Faulty (.items key position) (position.listFault key)

end Slot

/-- A document in a position is at fault itself: the fault is not one of a node nested in it. The
type is known from the moment on at which the document turns out to be a node. -/
inductive OwnFault (p : Position) : Document → Option String → Fault → Prop
  | notMapping {d : Document} (h : ∀ fields, d ≠ .mapping fields) :
    OwnFault p d none (.notMapping d.typeName)
  | noType {fields : List (String × Document)} (h : typeWord p.implied? fields = "") :
    OwnFault p (.mapping fields) none .noType
  | misfit {fields : List (String × Document)} {fault : Fault}
    (htype : typeWord p.implied? fields ≠ "") (hslots : p.slots? fields = none)
    (h : p.misfit? = some fault) :
    OwnFault p (.mapping fields) (some (typeWord p.implied? fields)) fault
  | field {fields : List (String × Document)} {done rest : List Slot} {slot : Slot} {fault : Fault}
    (hslots : p.slots? fields = some (done ++ slot :: rest)) (hdone : ∀ s ∈ done, s.Sound fields)
    (h : slot.Faulty fields fault) :
    OwnFault p (.mapping fields) (some (typeWord p.implied? fields)) fault

namespace Spot

/-- The nodes that stand in the fields of a node, in the order in which they are read. -/
def children (s : Spot) : List Spot :=
  match s.document with
  | .mapping fields =>
    ((s.position.slots? fields).getD []).flatMap fun slot => slot.children fields s.path
  | _ => []

end Spot

theorem sizeOf_under_lt {fields : List (String × Document)} {key : String}
    (h : under fields key ≠ .null) : sizeOf (under fields key) < sizeOf (mapping fields) := by
  cases hfield : fields.lookup key with
  | none => exact absurd (by simp [under, hfield]) h
  | some d =>
    have hunder : under fields key = d := by simp [under, hfield]
    rw [hunder]
    exact sizeOf_lt_of_lookup hfield

theorem Slot.children_required {fields : List (String × Document)} {path : Path} {key : String}
    {position : Position} (h : under fields key ≠ .null) :
    (required key position).children fields path =
      [⟨path ++ [.key key], position, under fields key⟩] := by
  rw [children]
  split
  · next hnull => exact absurd hnull h
  · rfl

theorem Slot.children_items {fields : List (String × Document)} {path : Path} {key : String}
    {position : Position} {ds : List Document} (h : under fields key = .list ds) :
    (items key position).children fields path =
      ds.mapIdx fun i d => ⟨path ++ [.key key, .index i], position, d⟩ := by
  rw [children, h]

/-- What stands in a field: the node itself, or an item of a list. -/
theorem Slot.mem_children {fields : List (String × Document)} {path : Path} {slot : Slot}
    {c : Spot} (h : c ∈ slot.children fields path) :
    c.document ≠ .null ∧ under fields slot.key = c.document ∧ c.path = path ++ [.key slot.key] ∨
      ∃ ds i, under fields slot.key = .list ds ∧ ds[i]? = some c.document ∧
        c.path = path ++ [.key slot.key, .index i] := by
  cases slot with
  | required key position | optional key position =>
    simp only [children] at h
    split at h
    · cases h
    · next hnull =>
      obtain rfl := List.mem_singleton.1 h
      exact .inl ⟨hnull, rfl, rfl⟩
  | items key position =>
    simp only [children] at h
    split at h
    · next ds hds =>
      obtain ⟨i, hi, rfl⟩ := List.mem_mapIdx.1 h
      exact .inr ⟨ds, i, hds, by simp [hi], rfl⟩
    · cases h
  | _ => cases h

theorem Spot.mem_children {s c : Spot} :
    c ∈ s.children ↔ ∃ fields slots, s.document = .mapping fields ∧
      s.position.slots? fields = some slots ∧ ∃ slot ∈ slots, c ∈ slot.children fields s.path := by
  obtain ⟨path, p, d⟩ := s
  cases d with
  | mapping fields => cases hslots : p.slots? fields <;> simp [children, hslots]
  | _ => simp [children]

theorem Spot.sizeOf_lt_of_mem_children {s c : Spot} (h : c ∈ s.children) :
    sizeOf c.document < sizeOf s.document := by
  obtain ⟨fields, slots, hfields, -, slot, -, hc⟩ := mem_children.1 h
  rw [hfields]
  obtain ⟨hnull, hunder, -⟩ | ⟨ds, i, hunder, hi, -⟩ := slot.mem_children hc
  · rw [← hunder] at hnull ⊢
    exact sizeOf_under_lt hnull
  · have hnull : under fields slot.key ≠ .null := hunder ▸ nofun
    have hlt := sizeOf_under_lt hnull
    rw [hunder, list.sizeOf_spec] at hlt
    have hmem := List.sizeOf_lt_of_mem (List.mem_of_getElem? hi)
    omega

/-- A node and all nodes nested in it, in the order in which they are read. -/
def Spot.nodes (s : Spot) : List Spot :=
  s :: s.children.attach.flatMap fun c => c.1.nodes
termination_by sizeOf s.document
decreasing_by exact sizeOf_lt_of_mem_children c.2

theorem Spot.nodes_eq (s : Spot) : s.nodes = s :: s.children.flatMap nodes := by
  rw [nodes, List.flatMap_subtype (g := nodes) fun _ _ => rfl, List.unattach_attach]

theorem Spot.mem_nodes {s n : Spot} : n ∈ s.nodes ↔ n = s ∨ ∃ c ∈ s.children, n ∈ c.nodes := by
  rw [nodes_eq, List.mem_cons, List.mem_flatMap]

/-- What passes from every node to the nodes in its fields passes to all that is nested in it. -/
theorem Spot.forall_nodes {P : Spot → Prop} (hstep : ∀ s, P s → ∀ c ∈ s.children, P c) (s : Spot)
    (h : P s) : ∀ n ∈ s.nodes, P n := by
  intro n hn
  obtain rfl | ⟨c, hc, hn⟩ := mem_nodes.1 hn
  · exact h
  · exact c.forall_nodes hstep (hstep s h c hc) n hn
termination_by sizeOf s.document
decreasing_by exact sizeOf_lt_of_mem_children hc

/-- The document that a path leads to. -/
def at? : Document → Path → Option Document
  | d, [] => some d
  | .mapping fields, .key key :: rest => (fields.lookup key).bind fun d => d.at? rest
  | .list ds, .index i :: rest => ds[i]?.bind fun d => d.at? rest
  | _, _ => none

theorem at?_append (d : Document) (p q : Path) : d.at? (p ++ q) = (d.at? p).bind (·.at? q) := by
  induction p generalizing d with
  | nil => rfl
  | cons step rest ih =>
    cases step with
    | key key => cases d <;> simp [at?, Option.bind_assoc, ih]
    | index i => cases d <;> simp [at?, Option.bind_assoc, ih]

theorem lookup_of_under {fields : List (String × Document)} {key : String}
    (h : under fields key ≠ .null) : fields.lookup key = some (under fields key) := by
  cases hfield : fields.lookup key with
  | none => exact absurd (by simp [under, hfield]) h
  | some d => simp [under, hfield]

/-- Following the path of a node leads from the root to it. -/
def Spot.IsAt (root : Document) (s : Spot) : Prop := root.at? s.path = some s.document

theorem Spot.IsAt.child {root : Document} {s c : Spot} (h : s.IsAt root) (hc : c ∈ s.children) :
    c.IsAt root := by
  obtain ⟨fields, slots, hfields, -, slot, -, hc⟩ := mem_children.1 hc
  rw [IsAt] at h ⊢
  obtain ⟨hnull, hunder, hpath⟩ | ⟨ds, i, hunder, hi, hpath⟩ := slot.mem_children hc
  · have hlookup := lookup_of_under (hunder ▸ hnull)
    rw [hpath, at?_append, h, hfields, Option.bind_some, at?, hlookup, hunder]
    rfl
  · have hnull : under fields slot.key ≠ .null := hunder ▸ nofun
    have hlookup := lookup_of_under hnull
    rw [hpath, at?_append, h, hfields, Option.bind_some, at?, hlookup, hunder, Option.bind_some,
      at?, hi]
    rfl

theorem Spot.IsAt.node {root : Document} {s : Spot} (h : s.IsAt root) :
    ∀ n ∈ s.nodes, n.IsAt root :=
  s.forall_nodes (fun _ hs _ hc => hs.child hc) h

theorem hasExprFields_iff {fields : List (String × Document)} {t : ExprType} :
    HasExprFields fields t ↔ ∀ slot ∈ t.slots, slot.Sound fields := by
  constructor
  · rintro ⟨⟩ <;> simp [ExprType.slots, Slot.Sound, Position.Valid, *]
  · intro h
    cases t <;> simp only [ExprType.slots, List.forall_mem_cons] at h <;> constructor <;>
      simp_all [Slot.Sound, Position.Valid]

theorem isDefinition_iff {fields : List (String × Document)} :
    IsDefinition fields ↔ ∀ slot ∈ StmtType.define.slots, slot.Sound fields := by
  constructor
  · rintro ⟨name, initial⟩
    simpa [StmtType.slots] using ⟨name, initial⟩
  · intro h
    simp only [StmtType.slots, List.forall_mem_cons] at h
    exact ⟨h.1, h.2.1⟩

theorem isOperation_iff {fields : List (String × Document)} :
    IsOperation fields ↔ ∀ slot ∈ StmtType.operation.slots, slot.Sound fields := by
  constructor
  · rintro ⟨name, params, body⟩
    simpa [StmtType.slots] using ⟨name, params, body⟩
  · intro h
    simp only [StmtType.slots, List.forall_mem_cons] at h
    exact ⟨h.1, h.2.1, h.2.2.1⟩

theorem hasStmtFields_iff {fields : List (String × Document)} {t : StmtType} :
    HasStmtFields fields t ↔ ∀ slot ∈ t.slots, slot.Sound fields := by
  cases t with
  | define =>
    rw [← isDefinition_iff]
    exact ⟨fun | .define h => h, .define⟩
  | operation =>
    rw [← isOperation_iff]
    exact ⟨fun | .operation h => h, .operation⟩
  | _ =>
    constructor
    · rintro ⟨⟩
      simp [StmtType.slots, Slot.Sound, Position.Valid, *]
    · intro h
      simp only [StmtType.slots, List.forall_mem_cons] at h
      constructor <;> simp_all [Slot.Sound, Position.Valid]

theorem typeWord_eq_iff {fields : List (String × Document)} {word : String} (h : word ≠ "") :
    typeWord none fields = word ↔ fields.lookup "type" = some (.text word) := by
  have hiff := @isTyped_iff none fields word
  constructor
  · rintro rfl
    obtain ⟨-, htype⟩ | ⟨-, -, ⟨⟩⟩ := hiff.2 ⟨h, rfl⟩
    exact htype
  · intro htype
    exact (hiff.1 (.given h htype)).2.symm

/-- A type that the position fixes. -/
theorem typeWord_fixed_iff {fields : List (String × Document)} {word : String} (h : word ≠ "") :
    typeWord (some word) fields = word ↔
      fields.lookup "type" = none ∨ fields.lookup "type" = some (.text word) := by
  rw [← isTyped_fixed h, isTyped_iff]
  constructor
  · intro htype
    exact ⟨by rwa [htype], htype.symm⟩
  · exact fun htype => htype.2.symm

theorem isArm_iff {d : Document} :
    d.IsArm ↔ ∃ fields, d = .mapping fields ∧ typeWord (some "Or") fields ≠ "" ∧
      IsExpression (under fields "condition") ∧ IsStatement (under fields "branch") := by
  constructor
  · rintro ⟨htype, condition, branch⟩
    refine ⟨_, rfl, ?_, condition, branch⟩
    obtain htype | ⟨word, hword, htype⟩ := htype
    · simp [typeWord, htype]
    · simpa [typeWord, htype] using hword
  · rintro ⟨fields, rfl, hword, condition, branch⟩
    refine .node ?_ condition branch
    obtain ⟨hne, htype⟩ | ⟨-, htype, -⟩ := isTyped_iff.2 ⟨hword, rfl⟩
    · exact .inr ⟨_, hne, htype⟩
    · exact .inl htype

/-- A document is valid in a position exactly if it is a node of a type that is allowed there and
all its fields are as they should be. -/
theorem Position.valid_iff {p : Position} {d : Document} :
    p.Valid d ↔ ∃ fields slots, d = .mapping fields ∧ p.slots? fields = some slots ∧
      ∀ slot ∈ slots, slot.Sound fields := by
  cases p with
  | expression =>
    constructor
    · rintro ⟨t, htype, h⟩
      refine ⟨_, t.slots, rfl, ?_, hasExprFields_iff.1 h⟩
      rw [slots?, ExprType.ofName?_eq_some_iff.2 ((typeWord_eq_iff t.name_ne_empty).2 htype)]
      rfl
    · rintro ⟨fields, slots, rfl, hslots, h⟩
      obtain ⟨t, ht, rfl⟩ := Option.map_eq_some_iff.1 hslots
      have htype := ExprType.ofName?_eq_some_iff.1 ht
      exact .node t ((typeWord_eq_iff t.name_ne_empty).1 htype) (hasExprFields_iff.2 h)
  | statement =>
    constructor
    · rintro ⟨t, htype, h⟩
      refine ⟨_, t.slots, rfl, ?_, hasStmtFields_iff.1 h⟩
      rw [slots?, StmtType.ofName?_eq_some_iff.2 ((typeWord_eq_iff t.name_ne_empty).2 htype)]
      rfl
    · rintro ⟨fields, slots, rfl, hslots, h⟩
      obtain ⟨t, ht, rfl⟩ := Option.map_eq_some_iff.1 hslots
      have htype := StmtType.ofName?_eq_some_iff.1 ht
      exact .node t ((typeWord_eq_iff t.name_ne_empty).1 htype) (hasStmtFields_iff.2 h)
  | arm =>
    rw [Valid, isArm_iff]
    constructor
    · rintro ⟨fields, rfl, hword, condition, branch⟩
      refine ⟨fields, _, rfl, if_neg hword, ?_⟩
      simpa using ⟨condition, branch⟩
    · rintro ⟨fields, slots, rfl, hslots, h⟩
      obtain ⟨hword, ⟨⟩⟩ := Option.ite_none_left_eq_some.1 hslots
      rw [List.forall_mem_cons, List.forall_mem_singleton] at h
      exact ⟨fields, rfl, hword, h⟩
  | method =>
    constructor
    · rintro ⟨htype, h⟩
      exact ⟨_, _, rfl, if_pos ((typeWord_fixed_iff (by decide)).2 htype), isOperation_iff.1 h⟩
    · rintro ⟨fields, slots, rfl, hslots, h⟩
      obtain ⟨htype, ⟨⟩⟩ := Option.ite_none_right_eq_some.1 hslots
      exact .node ((typeWord_fixed_iff (by decide)).1 htype) (isOperation_iff.2 h)
  | member =>
    constructor
    · rintro ⟨htype, h⟩
      exact ⟨_, _, rfl, if_pos ((typeWord_fixed_iff (by decide)).2 htype), isDefinition_iff.1 h⟩
    · rintro ⟨fields, slots, rfl, hslots, h⟩
      obtain ⟨htype, ⟨⟩⟩ := Option.ite_none_right_eq_some.1 hslots
      exact .node ((typeWord_fixed_iff (by decide)).1 htype) (isDefinition_iff.2 h)

theorem Position.not_valid_null (p : Position) : ¬p.Valid .null := by
  rw [valid_iff]
  rintro ⟨fields, slots, ⟨⟩, -⟩

theorem Listing.imp {P Q : Document → Prop} {d : Document} (h : Listing P d)
    (hPQ : ∀ d, P d → Q d) : Listing Q d := by
  cases h with
  | missing => exact .missing
  | list h => exact .list fun d hd => hPQ d (h d hd)

theorem Slot.Faulty.not_sound {fields : List (String × Document)} {slot : Slot} {fault : Fault}
    (h : slot.Faulty fields fault) : ¬slot.Sound fields := by
  intro hsound
  cases h with
  | missingName h =>
    rw [Sound, h] at hsound
    cases hsound
  | emptyName h =>
    rw [Sound, h] at hsound
    cases hsound with
    | text hne => exact hne rfl
  | notName _ _ h => exact h hsound
  | notNames h => exact h (Listing.imp hsound fun _ _ => trivial)
  | notNameAt hlist _ h =>
    rw [Sound, hlist] at hsound
    cases hsound with
    | list hall => exact h (hall _ (by simp))
  | unknownOperator h => exact h hsound
  | unsupportedLiteral h => exact h hsound
  | missing h =>
    rw [Sound, h] at hsound
    exact Position.not_valid_null _ hsound
  | notList h => exact h (Listing.imp hsound fun _ _ => trivial)

/-- A document that is at fault itself is not valid. -/
theorem OwnFault.not_valid {p : Position} {d : Document} {type : Option String} {fault : Fault}
    (h : OwnFault p d type fault) : ¬p.Valid d := by
  rw [Position.valid_iff]
  rintro ⟨fields, slots, rfl, hslots, hsound⟩
  cases h with
  | notMapping h => exact h fields rfl
  | noType htype =>
    cases p with
    | expression | statement =>
      rw [Position.slots?, show typeWord none fields = "" from htype] at hslots
      cases hslots
    | arm => exact (Option.ite_none_left_eq_some.1 hslots).1 htype
    | method | member =>
      have hword := (Option.ite_none_right_eq_some.1 hslots).1
      exact absurd (hword.symm.trans htype) (by decide)
  | misfit _ hnone => cases hnone.symm.trans hslots
  | field hsome _ h =>
    obtain rfl := Option.some.inj (hsome.symm.trans hslots)
    exact h.not_sound (hsound _ (by simp))

/-- The nodes in a sound field are valid. -/
theorem Slot.Sound.children {fields : List (String × Document)} {slot : Slot}
    (h : slot.Sound fields) {path : Path} : ∀ c ∈ slot.children fields path, c.Valid := by
  cases slot with
  | required key position =>
    intro c hc
    rw [Slot.children] at hc
    split at hc
    · cases hc
    · obtain rfl := List.mem_singleton.1 hc
      exact h
  | optional key position =>
    intro c hc
    rw [Slot.children] at hc
    split at hc
    · cases hc
    · next hnull =>
      obtain rfl := List.mem_singleton.1 hc
      exact Optionally.of_ne_null h hnull
  | items key position =>
    intro c hc
    rw [Slot.children] at hc
    split at hc
    · next ds hds =>
      obtain ⟨i, hi, rfl⟩ := List.mem_mapIdx.1 hc
      rw [Sound, hds] at h
      cases h with
      | list hall => exact hall _ (List.getElem_mem hi)
    · cases hc
  | _ => exact List.forall_mem_nil _

theorem Spot.Valid.child {s : Spot} (h : s.Valid) : ∀ c ∈ s.children, c.Valid := by
  intro c hc
  obtain ⟨fields, slots, hfields, hslots, slot, hslot, hc⟩ := mem_children.1 hc
  rw [Spot.Valid, hfields, Position.valid_iff] at h
  obtain ⟨fields', slots', ⟨⟩, hslots', hsound⟩ := h
  obtain rfl := Option.some.inj (hslots.symm.trans hslots')
  exact (hsound slot hslot).children c hc

theorem Spot.Valid.node {s : Spot} (h : s.Valid) : ∀ n ∈ s.nodes, n.Valid :=
  s.forall_nodes (fun _ hs => hs.child) h

/-- The first fault that there is at a spot: its own, or the first one of a node in one of its
fields. Fields and nodes before are as they should be. -/
inductive FirstFault : Spot → Invalid → Prop
  | own {s : Spot} {type : Option String} {fault : Fault}
    (h : OwnFault s.position s.document type fault) : FirstFault s ⟨s.path, type, fault⟩
  | inside {path : Path} {p : Position} {fields : List (String × Document)} {i : Invalid}
    {done rest : List Slot} {slot : Slot} {before after : List Spot} {c : Spot}
    (hslots : p.slots? fields = some (done ++ slot :: rest)) (hdone : ∀ s ∈ done, s.Sound fields)
    (hchildren : slot.children fields path = before ++ c :: after)
    (hbefore : ∀ b ∈ before, b.Valid) (h : FirstFault c i) :
    FirstFault ⟨path, p, .mapping fields⟩ i

/-- Of a node in which another one is nested, the fields that come before the one in which it is
nested are as they should be. -/
def Spot.SoundUpTo (s inner : Spot) : Prop :=
  ∃ fields done slot rest, s.document = .mapping fields ∧
    s.position.slots? fields = some (done ++ slot :: rest) ∧ (∀ t ∈ done, t.Sound fields) ∧
    ∃ c ∈ slot.children fields s.path, inner ∈ c.nodes

/-- There is nothing wrong with the nodes that come before a spot: those that do not contain it are
valid, and those that do are sound as far as they come before it. -/
structure Spot.ClearBefore (spot : Spot) (before : List Spot) : Prop where
  valid : ∀ n ∈ before, spot ∉ n.nodes → n.Valid
  sound : ∀ n ∈ before, spot ∈ n.nodes → n.SoundUpTo spot

/-- Valid nodes cannot contain a spot that is not valid. -/
theorem Spot.ClearBefore.of_valid {spot : Spot} (hspot : ¬spot.Valid) {before : List Spot}
    (h : ∀ n ∈ before, n.Valid) : spot.ClearBefore before :=
  ⟨fun n hn _ => h n hn, fun n hn hmem => absurd ((h n hn).node spot hmem) hspot⟩

theorem Spot.ClearBefore.append {spot : Spot} {before after : List Spot}
    (h : spot.ClearBefore before) (h' : spot.ClearBefore after) :
    spot.ClearBefore (before ++ after) :=
  ⟨List.forall_mem_append.2 ⟨h.valid, h'.valid⟩, List.forall_mem_append.2 ⟨h.sound, h'.sound⟩⟩

/-- Valid nodes in front, with all that is nested in them. -/
theorem Spot.ClearBefore.behind {spot : Spot} {before earlier : List Spot}
    (h : spot.ClearBefore before) (hspot : ¬spot.Valid) (hearlier : ∀ b ∈ earlier, b.Valid) :
    spot.ClearBefore (earlier.flatMap Spot.nodes ++ before) := by
  refine .append (.of_valid hspot fun n hn => ?_) h
  obtain ⟨b, hb, hn⟩ := List.mem_flatMap.1 hn
  exact (hearlier b hb).node n hn

/-- The node with the first fault, among all nodes. -/
theorem FirstFault.exists_node {s : Spot} {i : Invalid} (h : FirstFault s i) :
    ∃ before spot after, s.nodes = before ++ spot :: after ∧ spot.path = i.path ∧
      OwnFault spot.position spot.document i.nodeType i.fault ∧ spot.ClearBefore before := by
  induction h with
  | @own s type fault h =>
    exact ⟨[], s, _, s.nodes_eq, rfl, h, List.forall_mem_nil _, List.forall_mem_nil _⟩
  | @inside path p fields i done rest slot before after c hslots hdone hchildren hbefore _ ih =>
    obtain ⟨inner, spot, outer, hnodes, hpath, hown, hclear⟩ := ih
    -- all nodes in the fields, with the one that contains the spot in the middle
    have hall : (⟨path, p, .mapping fields⟩ : Spot).children =
        (done.flatMap (·.children fields path) ++ before) ++
          c :: (after ++ rest.flatMap (·.children fields path)) := by
      simp [Spot.children, hslots, hchildren]
    have hearlier : ∀ b ∈ done.flatMap (·.children fields path) ++ before, b.Valid := by
      refine List.forall_mem_append.2 ⟨fun b hb => ?_, hbefore⟩
      obtain ⟨t, ht, hb⟩ := List.mem_flatMap.1 hb
      exact (hdone t ht).children b hb
    generalize done.flatMap (·.children fields path) ++ before = earlier at hall hearlier
    have hspot : spot ∈ c.nodes := by simp [hnodes]
    refine ⟨⟨path, p, .mapping fields⟩ :: earlier.flatMap Spot.nodes ++ inner, spot,
      outer ++ (after ++ rest.flatMap (·.children fields path)).flatMap Spot.nodes, ?_, hpath,
      hown, ?_⟩
    · rw [Spot.nodes_eq, hall]
      simp [hnodes]
    · have hself : spot.ClearBefore [⟨path, p, .mapping fields⟩] := by
        constructor
        · refine List.forall_mem_singleton.2 fun hnot => absurd ?_ hnot
          exact Spot.mem_nodes.2 (.inr ⟨c, by simp [hall], hspot⟩)
        · refine List.forall_mem_singleton.2 fun _ => ?_
          exact ⟨fields, done, slot, rest, rfl, hslots, hdone, c, by simp [hchildren], hspot⟩
      exact hself.append (hclear.behind hown.not_valid hearlier)

end Document

end Treescript
