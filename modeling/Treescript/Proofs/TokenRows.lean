import Treescript.Proofs.DocumentNodes

/-!
# The rows of tokens

The reader keeps one line: a node that gives a line sets it, and every token is put on the line
given last. Nothing takes a line back when the node that gave it has been read. So a token is on the
row of its own node (the line this gives, or else the row of the node around it) exactly where the
line given last before the token is that row.
-/

namespace Treescript

mutual

/-- The tokens of an expression, in the order in which they are read. -/
def Expr.tokens : Expr → List Token
  | .hole => []
  | .literal t _ | .variable t _ | .self t _ | .parent t | .global t => [t]
  | .assign name value _ => name :: value.tokens
  | .unary operator right => operator :: right.tokens
  | .binary left operator right | .logical left operator right =>
    operator :: (left.tokens ++ right.tokens)
  | .count operator target name _ => operator :: (target.tokens ++ [name])
  | .call callee paren args => callee.tokens ++ (Expr.tokensOfList args ++ [paren])
  | .group t inner => t :: inner.tokens
  | .get object name => object.tokens ++ [name]
  | .set object name value => object.tokens ++ name :: value.tokens

def Expr.tokensOfList : List Expr → List Token
  | [] => []
  | e :: es => e.tokens ++ Expr.tokensOfList es

end

def Expr.tokensOptional : Option Expr → List Token
  | none => []
  | some e => e.tokens

def Definition.tokens (d : Definition) : List Token :=
  d.token :: d.name :: Expr.tokensOptional d.initial

mutual

/-- The tokens of a statement, in the order in which they are read. -/
def Stmt.tokens : Stmt → List Token
  | .hole => []
  | .expression t value | .print t value => t :: value.tokens
  | .define d => d.tokens
  | .block t body => t :: Stmt.tokensOfList body
  | .operation o => o.tokens
  | .conditional t condition branch arms none =>
    t :: (condition.tokens ++ (branch.tokens ++ Arm.tokensOfList arms))
  | .conditional t condition branch arms (some otherwise) =>
    t :: (condition.tokens ++ (branch.tokens ++ (Arm.tokensOfList arms ++ otherwise.tokens)))
  | .arm a => a.tokens
  | .loop t condition body => t :: (condition.tokens ++ body.tokens)
  | .return t value => t :: Expr.tokensOptional value
  | .object t name methods => t :: name :: Operation.tokensOfList methods
  | .enum t name elements => t :: name :: elements
  | .form t name members => t :: name :: members.flatMap Definition.tokens

def Stmt.tokensOfList : List Stmt → List Token
  | [] => []
  | s :: ss => s.tokens ++ Stmt.tokensOfList ss

def Operation.tokens : Operation → List Token
  | ⟨t, name, params, body⟩ => t :: name :: (params ++ Stmt.tokensOfList body)

def Operation.tokensOfList : List Operation → List Token
  | [] => []
  | o :: os => o.tokens ++ Operation.tokensOfList os

def Arm.tokens : Arm → List Token
  | ⟨t, condition, branch⟩ => t :: (condition.tokens ++ branch.tokens)

def Arm.tokensOfList : List Arm → List Token
  | [] => []
  | a :: rest => a.tokens ++ Arm.tokensOfList rest

end

def Program.tokens (p : Program) : List Token := Stmt.tokensOfList p

def Token.rows (ts : List Token) : List Int := ts.map (·.row)

@[simp] theorem Token.rows_nil : Token.rows [] = [] := rfl

@[simp] theorem Token.rows_cons (t : Token) (ts : List Token) :
    Token.rows (t :: ts) = t.row :: Token.rows ts := rfl

@[simp] theorem Token.rows_append (ts us : List Token) :
    Token.rows (ts ++ us) = Token.rows ts ++ Token.rows us := List.map_append

namespace Document

/-- What a node consists of: tokens of its own, and nodes in its fields. -/
inductive Part where
  | token
  | node (position : Position) (d : Document)

/-- What is made of a field. -/
def Slot.parts (fields : List (String × Document)) : Slot → List Part
  | .name _ | .operator _ | .literal => [.token]
  | .words key =>
    match under fields key with
    | .list ds => ds.map fun _ => .token
    | _ => []
  | .required key position | .optional key position =>
    match under fields key with
    | .null => []
    | d => [.node position d]
  | .items key position =>
    match under fields key with
    | .list ds => ds.map (.node position)
    | _ => []

end Document

open Document

/-- What is made of an expression, in the order in which it is read. The closing parenthesis of a
call comes last. A count has its name twice: as its target, and once more on its own. -/
def ExprType.parts (fields : List (String × Document)) (t : ExprType) : List Part :=
  match t with
  | .grouping | .self => .token :: t.slots.flatMap (·.parts fields)
  | .call | .count => t.slots.flatMap (·.parts fields) ++ [.token]
  | _ => t.slots.flatMap (·.parts fields)

namespace Document

/-- What is made of a node in this position. All but the expressions begin with a token. -/
def Position.parts (fields : List (String × Document)) : Position → List Part
  | .expression => ((ExprType.ofName? (typeWord none fields)).map (·.parts fields)).getD []
  | p => .token :: ((p.slots? fields).getD []).flatMap (·.parts fields)

theorem Position.parts_of_slots? {fields : List (String × Document)} {p : Position}
    {slots : List Slot} (h : p.slots? fields = some slots) (hp : p ≠ .expression) :
    p.parts fields = .token :: slots.flatMap (·.parts fields) := by
  rw [parts, h]
  · rfl
  · exact hp

theorem Slot.sizeOf_lt_of_mem_parts {fields : List (String × Document)} {slot : Slot}
    {p : Position} {d : Document} (h : .node p d ∈ slot.parts fields) :
    sizeOf d < sizeOf (mapping fields) := by
  cases slot with
  | required key position | optional key position =>
    simp only [parts] at h
    split at h
    · cases h
    · next hnull =>
      cases List.mem_singleton.1 h
      exact sizeOf_under_lt hnull
  | items key position =>
    simp only [parts] at h
    split at h
    · next ds hds =>
      obtain ⟨c, hc, hnode⟩ := List.mem_map.1 h
      cases hnode
      have hlt : sizeOf (under fields key) < sizeOf (mapping fields) :=
        sizeOf_under_lt (hds ▸ nofun)
      have hmem := List.sizeOf_lt_of_mem hc
      rw [hds, list.sizeOf_spec] at hlt
      omega
    · cases h
  | words key =>
    simp only [parts] at h
    split at h
    · obtain ⟨c, -, hnode⟩ := List.mem_map.1 h
      cases hnode
    · cases h
  | name key | operator table | literal => cases List.mem_singleton.1 h

theorem Position.sizeOf_lt_of_mem_parts {fields : List (String × Document)} {p q : Position}
    {d : Document} (h : .node q d ∈ p.parts fields) : sizeOf d < sizeOf (mapping fields) := by
  have hslots : ∀ slots : List Slot, .node q d ∈ slots.flatMap (·.parts fields) →
      sizeOf d < sizeOf (mapping fields) := by
    intro slots hmem
    obtain ⟨slot, -, hslot⟩ := List.mem_flatMap.1 hmem
    exact slot.sizeOf_lt_of_mem_parts hslot
  cases p with
  | expression =>
    rw [parts] at h
    generalize ExprType.ofName? (typeWord none fields) = type at h
    cases type with
    | none => cases h
    | some t =>
      apply hslots t.slots
      cases t <;> simpa [ExprType.parts] using h
  | statement | arm | method | member =>
    rw [parts] at h
    · exact hslots _ (by simpa using h)
    · nofun

/-- What happens while a document is read: a node gives a line, or a token is made for a node whose
row is `due`. -/
inductive Event where
  | line (n : Int)
  | token (due : Int)
  deriving DecidableEq

namespace Event

/-- The line that a node gives, if it gives one. -/
def ofLine (fields : List (String × Document)) : List Event :=
  match fields.lookup "line" with
  | some (int n) => [.line n.toInt]
  | _ => []

/-- The line given last. -/
def lineAfter (line : Int) : List Event → Int
  | [] => line
  | .line n :: rest => lineAfter n rest
  | .token _ :: rest => lineAfter line rest

/-- The rows of the tokens if each of them is put on the line given last. -/
def rows (line : Int) : List Event → List Int
  | [] => []
  | .line n :: rest => rows n rest
  | .token _ :: rest => line :: rows line rest

/-- The rows of the tokens if each of them is put on the row of its node. -/
def dueRows : List Event → List Int
  | [] => []
  | .line _ :: rest => dueRows rest
  | .token due :: rest => due :: dueRows rest

theorem lineAfter_append (line : Int) (es fs : List Event) :
    lineAfter line (es ++ fs) = lineAfter (lineAfter line es) fs := by
  induction es generalizing line with
  | nil => rfl
  | cons e es ih => cases e <;> exact ih _

theorem rows_append (line : Int) (es fs : List Event) :
    rows line (es ++ fs) = rows line es ++ rows (lineAfter line es) fs := by
  induction es generalizing line with
  | nil => rfl
  | cons e es ih =>
    cases e with
    | line n => exact ih n
    | token due => exact congrArg (line :: ·) (ih line)

theorem lineAfter_ofLine (fields : List (String × Document)) (line : Int) :
    lineAfter line (ofLine fields) = lineOf fields line := by
  rw [ofLine, lineOf]
  cases fields.lookup "line" with
  | none => rfl
  | some d => cases d <;> rfl

theorem rows_ofLine (fields : List (String × Document)) (line : Int) :
    rows line (ofLine fields) = [] := by
  rw [ofLine]
  split <;> rfl

/-- All tokens are on the rows of their nodes exactly if the line given last before a token is
always the row of its node. -/
theorem rows_eq_dueRows_iff (line : Int) (es : List Event) :
    rows line es = dueRows es ↔
      ∀ before due after, es = before ++ .token due :: after → lineAfter line before = due := by
  induction es generalizing line with
  | nil => simp [rows, dueRows]
  | cons e es ih =>
    cases e with
    | line n =>
      rw [rows, dueRows, ih]
      constructor
      · rintro h (_ | ⟨_, before⟩) due after hes
        · cases hes
        · cases hes
          exact h before due after rfl
      · rintro h before due after rfl
        exact h (.line n :: before) due after rfl
    | token d =>
      rw [rows, dueRows, List.cons.injEq, ih]
      constructor
      · rintro ⟨hd, h⟩ (_ | ⟨_, before⟩) due after hes
        · cases hes
          exact hd
        · cases hes
          exact h before due after rfl
      · intro h
        refine ⟨h [] d es rfl, ?_⟩
        rintro before due after rfl
        exact h (.token d :: before) due after rfl

end Event

/-- What happens while a node is read. The row of the node is the line that it gives, or else the
row of the node around it. -/
def events (p : Position) (outer : Int) (d : Document) : List Event :=
  match d with
  | .mapping fields =>
    Event.ofLine fields ++ (p.parts fields).attach.flatMap fun
      | ⟨.token, _⟩ => [.token (lineOf fields outer)]
      | ⟨.node q c, _⟩ => c.events q (lineOf fields outer)
  | _ => []
termination_by sizeOf d
decreasing_by exact Position.sizeOf_lt_of_mem_parts (by assumption)

/-- What happens while a part of a node on the given row is read. -/
def Part.events (row : Int) : Part → List Event
  | .token => [.token row]
  | .node p d => d.events p row

theorem events_mapping (p : Position) (outer : Int) (fields : List (String × Document)) :
    (mapping fields).events p outer =
      Event.ofLine fields ++ (p.parts fields).flatMap (Part.events (lineOf fields outer)) := by
  rw [events, List.flatMap_subtype (g := Part.events (lineOf fields outer)), List.unattach_attach]
  rintro (_ | ⟨q, c⟩) h <;> rfl

/-- Whatever the reading returns is related to the rows of the tokens that it makes while the given
events happen, and the reading ends on the line given last. -/
def Emits {α : Type} (r : Reading α) (es : List Event) (R : α → List Int → Prop) : Prop :=
  ∀ line a line', r.run line = .ok (a, line') →
    R a (Event.rows line es) ∧ line' = Event.lineAfter line es

namespace Emits

variable {α β : Type} {r : Reading α} {R : α → List Int → Prop} {S : β → List Int → Prop}
  {es fs : List Event}

protected theorem pure {a : α} (h : R a []) : Emits (pure a) [] R := by
  rintro line b line' ⟨⟩
  exact ⟨h, rfl⟩

protected theorem throw (i : Invalid) : Emits (throw i) es R := by
  rintro line a line' ⟨⟩

theorem token (kind : TokenKind) (word : String) (literal : Literal) (row : Int) :
    Emits (token kind word literal) [.token row] fun t rows => rows = [t.row] := by
  rintro line a line' ⟨⟩
  exact ⟨rfl, rfl⟩

protected theorem get (row : Int) :
    Emits (get : Reading Int) [.token row] fun line rows => rows = [line] := by
  rintro line a line' ⟨⟩
  exact ⟨rfl, rfl⟩

/-- The rest of a reading adds to the rows that are there. -/
protected theorem bind {k : α → Reading β} (h : Emits r es R)
    (hk : ∀ a done, R a done → Emits (k a) fs fun b more => S b (done ++ more)) :
    Emits (r >>= k) (es ++ fs) S := by
  intro line b line' hrun
  rw [StateT.run_bind] at hrun
  cases hr : r.run line with
  | error i =>
    rw [hr] at hrun
    cases hrun
  | ok result =>
    rw [hr] at hrun
    obtain ⟨hR, hline⟩ := h line result.1 result.2 hr
    obtain ⟨hS, hline'⟩ := hk result.1 _ hR result.2 b line' hrun
    rw [hline] at hS hline'
    exact ⟨by rwa [Event.rows_append], by rwa [Event.lineAfter_append]⟩

/-- The last step makes no token. -/
theorem ending {k : α → β} (h : Emits r es R) (hk : ∀ a rows, R a rows → S (k a) rows) :
    Emits (r >>= fun a => pure (k a)) es S := by
  have hpure : ∀ a done, R a done →
      Emits (pure (k a)) [] fun b more => S b (done ++ more) := fun a done hR =>
    Emits.pure (by simpa using hk a done hR)
  have hbind := h.bind hpure
  rwa [List.append_nil] at hbind

protected theorem map {f : α → β} (h : Emits r es R) (hf : ∀ a rows, R a rows → S (f a) rows) :
    Emits (f <$> r) es S := by
  rw [map_eq_pure_bind]
  exact h.ending hf

/-- A check before the rest, which stops the reading when it fails. -/
theorem guarded {c : Prop} [Decidable c] {i : Invalid} {rest : Unit → Reading β}
    (h : ¬c → Emits (rest ()) fs S) : Emits (if c then throw i >>= rest else rest ()) fs S := by
  split
  · rintro line a line' ⟨⟩
  · next hc => exact h hc

/-- A token that is kept twice counts twice. -/
theorem twice {r : Reading Token} {row : Int}
    (h : Emits r [.token row] fun t rows => rows = [t.row]) :
    Emits r [.token row, .token row] fun t rows => rows = [t.row, t.row] := by
  intro line t line' hrun
  obtain ⟨hrow, hline⟩ := h line t line' hrun
  cases hrow
  exact ⟨rfl, hline⟩

/-- A node gives its line first. -/
theorem openAs {implied : Option String} {d : Document} {path : Path} {k : Opened d → Reading β}
    {p : Position} {outer : Int}
    (hk : ∀ n : Opened d, n.type = typeWord implied n.fields → n.type ≠ "" →
      Emits (k n) ((p.parts n.fields).flatMap (Part.events (lineOf n.fields outer)) ++ fs) S) :
    Emits (Document.openAs implied d path >>= k) (d.events p outer ++ fs) S := by
  cases d with
  | mapping fields =>
    intro line b line' hrun
    rw [StateT.run_bind, run_openAs_mapping] at hrun
    rw [events_mapping, List.append_assoc, Event.rows_append, Event.lineAfter_append,
      Event.rows_ofLine, Event.lineAfter_ofLine]
    split at hrun
    · cases hrun
    · next htype => exact hk ⟨fields, typeWord implied fields, path, rfl⟩ rfl htype _ b line' hrun
  | _ => rintro line b line' ⟨⟩

end Emits

/-- What happens while a field of a node on the given row is read. -/
def Slot.events (fields : List (String × Document)) (row : Int) (slot : Slot) : List Event :=
  (slot.parts fields).flatMap (Part.events row)

def eventsOfList (p : Position) (row : Int) (ds : List Document) : List Event :=
  ds.flatMap (·.events p row)

namespace Opened

variable {β : Type} {S : β → List Int → Prop} {es fs : List Event} {d : Document} (n : Opened d)
  (row : Int) {key : String} {p : Position}

theorem emits_required {k : { c : Document // sizeOf c < sizeOf d } → Reading β}
    (hk : ∀ c, Emits (k c) (c.1.events p row ++ fs) S) :
    Emits (n.required key >>= k) ((Slot.required key p).events n.fields row ++ fs) S := by
  rw [required]
  obtain ⟨hfield, -⟩ | ⟨c, hfield, hunder, hnull⟩ := n.field?_cases key
  · rw [hfield]
    rintro line b line' ⟨⟩
  · have hevents : (Slot.required key p).events n.fields row = c.1.events p row := by
      rw [Slot.events, Slot.parts, ← hunder]
      split
      · next h => exact absurd h hnull
      · simp [Part.events]
    rw [hfield, hevents]
    simp only [pure_bind]
    exact hk c

theorem emits_items {fault : Fault} {k : { cs : List Document // sizeOf cs < sizeOf d } → Reading β}
    (hk : ∀ cs, Emits (k cs) (eventsOfList p row cs.1 ++ fs) S) :
    Emits (n.items key fault >>= k) ((Slot.items key p).events n.fields row ++ fs) S := by
  rw [items, Slot.events, Slot.parts]
  obtain ⟨hfield, hunder⟩ | ⟨⟨c, hlt⟩, hfield, hunder, hnull⟩ := n.field?_cases key
  · rw [hfield, hunder]
    exact hk _
  · rw [hfield, ← hunder]
    cases c with
    | list ds =>
      simp only [pure_bind]
      have hevents : (ds.map (Part.node p)).flatMap (Part.events row) = eventsOfList p row ds := by
        rw [List.flatMap_map]
        rfl
      rw [hevents]
      exact hk ⟨ds, _⟩
    | null => exact absurd rfl hnull
    | _ => rintro line b line' ⟨⟩

theorem emits_name (key : String) :
    Emits (n.name key) ((Slot.name key).events n.fields row) fun t rows => rows = [t.row] := by
  rw [name]
  cases n.field? key with
  | none => exact .throw _
  | some c =>
    obtain ⟨c, -⟩ := c
    cases c with
    | text s =>
      dsimp only
      split
      · exact .throw _
      · exact .token _ _ _ row
    | int i => exact .token _ _ _ row
    | _ => exact .throw _

theorem emits_nameList (key : String) (ds : List Document) (index : Nat) :
    Emits (n.nameList key ds index) (ds.map fun _ => .token row)
      fun ts rows => rows = Token.rows ts := by
  induction ds generalizing index with
  | nil => exact .pure rfl
  | cons d ds ih =>
    cases d with
    | text s =>
      rw [nameList]
      refine .guarded fun _ => ?_
      refine (Emits.token _ _ _ row).bind fun t done ht => ?_
      exact (ih _).ending fun ts rows hts => by simp [ht, hts]
    | _ => exact .throw _

theorem emits_names (key : String) :
    Emits (n.names key) ((Slot.words key).events n.fields row)
      fun ts rows => rows = Token.rows ts := by
  rw [names, items, Slot.events, Slot.parts]
  obtain ⟨hfield, hunder⟩ | ⟨⟨c, hlt⟩, hfield, hunder, hnull⟩ := n.field?_cases key
  · rw [hfield, hunder]
    exact n.emits_nameList row key [] 0
  · rw [hfield, ← hunder]
    cases c with
    | list ds =>
      have hevents : (ds.map fun _ => Part.token).flatMap (Part.events row) =
          ds.map fun _ => .token row := by
        rw [List.flatMap_map]
        exact List.map_eq_flatMap.symm
      simp only [hevents]
      exact n.emits_nameList row key ds 0
    | null => exact absurd rfl hnull
    | _ => rintro line b line' ⟨⟩

theorem emits_operator (table : String → Option Operator) :
    Emits (n.operator table) ((Slot.operator table).events n.fields row)
      fun t rows => rows = [t.row] := by
  rw [operator]
  split
  · exact .token _ _ _ row
  · exact .throw _

theorem emits_literal :
    Emits n.literal (Slot.literal.events n.fields row)
      fun e rows => rows = Token.rows e.tokens := by
  have hlit : ∀ (kind : TokenKind) (word : String) (literal value : Literal),
      Emits (do return Expr.literal (← token kind word literal) value) [.token row]
        fun e rows => rows = Token.rows e.tokens := fun kind word literal value =>
    (Emits.token _ _ _ row).ending fun t rows ht => by simp [Expr.tokens, ht]
  rw [literal]
  cases n.field? "value" with
  | none => exact hlit _ _ _ _
  | some c =>
    obtain ⟨c, -⟩ := c
    cases c with
    | bool b => cases b <;> exact hlit _ _ _ _
    | int i | float x | text s => exact hlit _ _ _ _
    | _ => exact .throw _

end Opened

mutual

theorem expression_emits (d : Document) (path : Path) (outer : Int) :
    Emits (expression d path) (d.events .expression outer)
      fun e rows => rows = Token.rows e.tokens := by
  rw [expression, ← List.append_nil (d.events .expression outer)]
  refine .openAs fun n htype _ => ?_
  rw [List.append_nil, Position.parts, htype]
  -- the row of the node is what is due; the reading goes by the line given last
  generalize lineOf n.fields outer = row
  have hname := n.emits_name row "name"
  have hrequired : ∀ {α : Type} (key : String) {k : Expr → Reading α} {fs : List Event}
      {S : α → List Int → Prop},
      (∀ e done, done = Token.rows e.tokens →
        Emits (k e) fs fun b more => S b (done ++ more)) →
      Emits (n.required key >>= fun c => expression c.1 (n.child key) >>= k)
        ((Slot.required key .expression).events n.fields row ++ fs) S := fun key _ _ _ hk =>
    n.emits_required row fun c => (expression_emits c.1 _ row).bind hk
  cases ExprType.ofName? (typeWord none n.fields) with
  | none => exact .throw _
  | some t =>
    cases t <;> simp only [Option.map_some, Option.getD_some, ExprType.parts, ExprType.slots,
      List.flatMap_cons, List.flatMap_nil, List.flatMap_append]
    case literal => exact n.emits_literal row
    case «variable» | parent | global =>
      exact hname.ending fun t rows ht => by simp [Expr.tokens, ht]
    case self => exact (Emits.token _ _ _ row).ending fun t rows ht => by simp [Expr.tokens, ht]
    case assign =>
      exact hname.bind fun t done ht => hrequired "value" fun e more he =>
        .pure (by simp [Expr.tokens, ht, he])
    case unary =>
      exact (n.emits_operator row _).bind fun t done ht => hrequired "right" fun e more he =>
        .pure (by simp [Expr.tokens, ht, he])
    case binary | logical =>
      exact (n.emits_operator row _).bind fun t done ht => hrequired "left" fun l left hl =>
        hrequired "right" fun r right hr => .pure (by simp [Expr.tokens, ht, hl, hr])
    case count =>
      exact (n.emits_operator row _).bind fun t done ht => hname.twice.ending fun x rows hx => by
        simp [Expr.tokens, ht, hx]
    case call =>
      rw [List.append_nil, List.append_assoc]
      refine hrequired "callee" fun c done hc => n.emits_items row fun cs => ?_
      refine (expressions_emit cs.1 _ 0 row).bind fun es more hes => ?_
      exact (Emits.token _ _ _ row).ending fun t rows ht => by simp [Expr.tokens, hc, hes, ht]
    case grouping =>
      exact (Emits.token _ _ _ row).bind fun t done ht => hrequired "expression" fun e more he =>
        .pure (by simp [Expr.tokens, ht, he])
    case get =>
      exact hrequired "object" fun e done he => hname.ending fun t rows ht => by
        simp [Expr.tokens, he, ht]
    case set =>
      exact hrequired "object" fun e done he => hname.bind fun t more ht =>
        hrequired "value" fun v rows hv => .pure (by simp [Expr.tokens, he, ht, hv])
termination_by sizeOf d

theorem expressions_emit (ds : List Document) (path : Path) (index : Nat) (row : Int) :
    Emits (expressions ds path index) (eventsOfList .expression row ds)
      fun es rows => rows = Token.rows (Expr.tokensOfList es) := by
  match ds with
  | [] =>
    rw [expressions]
    exact .pure rfl
  | d :: rest =>
    rw [expressions]
    refine (expression_emits d _ row).bind fun e done he => ?_
    exact (expressions_emit rest path _ row).ending fun es rows hes => by
      simp [Expr.tokensOfList, he, hes]
termination_by sizeOf ds

end

namespace Opened

variable {d : Document} (n : Opened d) (row : Int)

theorem emits_requiredExpr (key : String) :
    Emits (n.requiredExpr key) ((Slot.required key .expression).events n.fields row)
      fun e rows => rows = Token.rows e.tokens := by
  rw [← List.append_nil (Slot.events _ _ _)]
  refine n.emits_required row fun c => ?_
  rw [List.append_nil]
  exact expression_emits c.1 _ row

theorem events_optional {key : String} {p : Position} (h : under n.fields key ≠ .null) :
    (Slot.optional key p).events n.fields row = (under n.fields key).events p row := by
  rw [Slot.events, Slot.parts]
  split
  · next hnull => exact absurd hnull h
  · simp [Part.events]

theorem emits_optionalExpr (key : String) :
    Emits (n.optionalExpr key) ((Slot.optional key .expression).events n.fields row)
      fun e rows => rows = Token.rows (Expr.tokensOptional e) := by
  rw [optionalExpr]
  obtain ⟨hfield, hunder⟩ | ⟨c, hfield, hunder, hnull⟩ := n.field?_cases key
  · rw [hfield, Slot.events, Slot.parts, hunder]
    exact .pure rfl
  · rw [n.events_optional row (hunder ▸ hnull), hfield, ← hunder]
    exact (expression_emits c.1 _ row).map fun e rows he => he

theorem emits_definition :
    Emits n.definition ((Part.token :: StmtType.define.slots.flatMap (·.parts n.fields)).flatMap
      (Part.events row)) fun x rows => rows = Token.rows x.tokens := by
  simp only [StmtType.slots, List.flatMap_cons, List.flatMap_nil, List.flatMap_append]
  refine (Emits.token _ _ _ row).bind fun t done ht => (n.emits_name row "name").bind
    fun x more hx => ?_
  exact (n.emits_optionalExpr row "initial").bind fun e rows he => .pure (by
    simp [Definition.tokens, ht, hx, he])

end Opened

theorem members_emit (path : Path) (ds : List Document) (index : Nat) (row : Int) :
    Emits (members path ds index) (eventsOfList .member row ds)
      fun xs rows => rows = Token.rows (xs.flatMap Definition.tokens) := by
  induction ds generalizing index with
  | nil => exact .pure rfl
  | cons d rest ih =>
    refine .openAs fun n htype _ => .guarded fun hdef => ?_
    have hslots : Position.member.slots? n.fields = some StmtType.define.slots :=
      if_pos (htype.symm.trans (Decidable.not_not.1 hdef))
    rw [Position.parts_of_slots? hslots nofun]
    refine (n.emits_definition _).bind fun x done hx => ?_
    exact (ih _).ending fun xs rows hxs => by simp [hx, hxs]

mutual

theorem statement_emits (d : Document) (path : Path) (outer : Int) :
    Emits (statement d path) (d.events .statement outer)
      fun s rows => rows = Token.rows s.tokens := by
  rw [statement, ← List.append_nil (d.events .statement outer)]
  refine .openAs fun n htype _ => ?_
  rw [List.append_nil]
  generalize lineOf n.fields outer = row
  have hname := n.emits_name row "name"
  have hrequired : ∀ {α : Type} (key : String) {k : Stmt → Reading α} {fs : List Event}
      {S : α → List Int → Prop},
      (∀ s done, done = Token.rows s.tokens →
        Emits (k s) fs fun b more => S b (done ++ more)) →
      Emits (n.required key >>= fun c => statement c.1 (n.child key) >>= k)
        ((Slot.required key .statement).events n.fields row ++ fs) S := fun key _ _ _ hk =>
    n.emits_required row fun c => (statement_emits c.1 _ row).bind hk
  cases ht : StmtType.ofName? n.type with
  | none => exact .throw _
  | some t =>
    have hslots : Position.statement.slots? n.fields = some t.slots := by
      rw [Position.slots?, ← htype, ht, Option.map_some]
    rw [Position.parts_of_slots? hslots nofun]
    cases t with
    | define => exact (n.emits_definition row).map fun x rows hx => hx
    | operation => exact (operation_emits d n row).map fun o rows ho => ho
    | _ => ?_
    all_goals
      simp only [StmtType.slots, List.flatMap_cons, List.flatMap_nil, List.flatMap_append]
    case expression =>
      -- there is no keyword here: the statement keeps the line itself
      exact (Emits.get row).bind fun line done hline =>
        (n.emits_requiredExpr row "expression").bind fun e rows he => .pure (by
          simp [Stmt.tokens, hline, he])
    case print =>
      exact (Emits.token _ _ _ row).bind fun t done ht =>
        (n.emits_requiredExpr row "expression").bind fun e rows he => .pure (by
          simp [Stmt.tokens, ht, he])
    case block =>
      refine (Emits.token _ _ _ row).bind fun t done ht => n.emits_items row fun cs => ?_
      exact (statements_emit cs.1 _ 0 row).bind fun ss rows hss => .pure (by
        simp [Stmt.tokens, ht, hss])
    case conditional =>
      refine (Emits.token _ _ _ row).bind fun t r₀ ht => ?_
      refine (n.emits_requiredExpr row "condition").bind fun c r₁ hc => ?_
      refine hrequired "then" fun b r₂ hb => n.emits_items row fun cs => ?_
      refine (arms_emit cs.1 _ 0 row).bind fun as r₃ has => ?_
      obtain ⟨hfield, hunder⟩ | ⟨o, hfield, hunder, hnull⟩ := n.field?_cases "else"
      · rw [hfield, Slot.parts, hunder]
        exact .pure (by simp [Stmt.tokens, ht, hc, hb, has])
      · have hevents := n.events_optional row (p := .statement) (hunder ▸ hnull)
        rw [Slot.events] at hevents
        rw [hfield, hevents, ← hunder]
        exact (statement_emits o.1 _ row).bind fun s rows hs => .pure (by
          simp [Stmt.tokens, ht, hc, hb, has, hs])
    case loop =>
      exact (Emits.token _ _ _ row).bind fun t r₀ ht =>
        (n.emits_requiredExpr row "condition").bind fun c r₁ hc => hrequired "body" fun b r₂ hb =>
          .pure (by simp [Stmt.tokens, ht, hc, hb])
    case «return» =>
      exact (Emits.token _ _ _ row).bind fun t done ht =>
        (n.emits_optionalExpr row "value").bind fun e rows he => .pure (by
          simp [Stmt.tokens, ht, he])
    case object =>
      refine (Emits.token _ _ _ row).bind fun t r₀ ht => hname.bind fun x r₁ hx => ?_
      refine n.emits_items row fun cs => ?_
      exact (methods_emit cs.1 _ 0 row).bind fun os rows hos => .pure (by
        simp [Stmt.tokens, ht, hx, hos])
    case «enum» =>
      exact (Emits.token _ _ _ row).bind fun t r₀ ht => hname.bind fun x r₁ hx =>
        (n.emits_names row "elements").bind fun ts rows hts => .pure (by
          simp [Stmt.tokens, ht, hx, hts])
    case form =>
      refine (Emits.token _ _ _ row).bind fun t r₀ ht => hname.bind fun x r₁ hx => ?_
      refine n.emits_items row fun cs => ?_
      exact (members_emit _ cs.1 0 row).bind fun xs rows hxs => .pure (by
        simp [Stmt.tokens, ht, hx, hxs])
termination_by 2 * sizeOf d + 1
decreasing_by all_goals omega

theorem operation_emits (d : Document) (n : Opened d) (row : Int) :
    Emits (operation d n)
      ((Part.token :: StmtType.operation.slots.flatMap (·.parts n.fields)).flatMap
        (Part.events row)) fun o rows => rows = Token.rows o.tokens := by
  rw [operation]
  simp only [StmtType.slots, List.flatMap_cons, List.flatMap_nil, List.flatMap_append]
  refine (Emits.token _ _ _ row).bind fun t done ht => (n.emits_name row "name").bind
    fun x more hx => (n.emits_names row "params").bind fun ts params hts => ?_
  refine n.emits_items row fun cs => ?_
  exact (statements_emit cs.1 _ 0 row).bind fun ss rows hss => .pure (by
    simp [Operation.tokens, ht, hx, hts, hss])
termination_by 2 * sizeOf d
decreasing_by all_goals omega

theorem statements_emit (ds : List Document) (path : Path) (index : Nat) (row : Int) :
    Emits (statements ds path index) (eventsOfList .statement row ds)
      fun ss rows => rows = Token.rows (Stmt.tokensOfList ss) := by
  match ds with
  | [] =>
    rw [statements]
    exact .pure rfl
  | d :: rest =>
    rw [statements]
    refine (statement_emits d _ row).bind fun s done hs => ?_
    exact (statements_emit rest path _ row).ending fun ss rows hss => by
      simp [Stmt.tokensOfList, hs, hss]
termination_by 2 * sizeOf ds
decreasing_by all_goals (rw [List.cons.sizeOf_spec]; omega)

theorem arms_emit (ds : List Document) (path : Path) (index : Nat) (row : Int) :
    Emits (arms ds path index) (eventsOfList .arm row ds)
      fun as rows => rows = Token.rows (Arm.tokensOfList as) := by
  match ds with
  | [] =>
    rw [arms]
    exact .pure rfl
  | d :: rest =>
    rw [arms]
    refine .openAs fun n htype hne => ?_
    have hslots : Position.arm.slots? n.fields =
        some [.required "condition" .expression, .required "branch" .statement] :=
      if_neg (htype ▸ hne)
    rw [Position.parts_of_slots? hslots nofun]
    simp only [List.flatMap_cons, List.flatMap_nil, List.flatMap_append, List.append_assoc]
    refine (Emits.token _ _ _ _).bind fun t done ht => ?_
    refine (n.emits_requiredExpr _ "condition").bind fun c more hc => ?_
    refine n.emits_required _ fun b => (statement_emits b.1 _ _).bind fun s mores hs => ?_
    exact (arms_emit rest path _ row).ending fun as rows has => by
      simp [Arm.tokensOfList, Arm.tokens, ht, hc, hs, has]
termination_by 2 * sizeOf ds
decreasing_by all_goals (rw [List.cons.sizeOf_spec]; omega)

theorem methods_emit (ds : List Document) (path : Path) (index : Nat) (row : Int) :
    Emits (methods ds path index) (eventsOfList .method row ds)
      fun os rows => rows = Token.rows (Operation.tokensOfList os) := by
  match ds with
  | [] =>
    rw [methods]
    exact .pure rfl
  | d :: rest =>
    rw [methods]
    refine .openAs fun n htype _ => .guarded fun hop => ?_
    have hslots : Position.method.slots? n.fields = some StmtType.operation.slots :=
      if_pos (htype.symm.trans (Decidable.not_not.1 hop))
    rw [Position.parts_of_slots? hslots nofun]
    refine (operation_emits d n _).bind fun o done ho => ?_
    exact (methods_emit rest path _ row).ending fun os rows hos => by
      simp [Operation.tokensOfList, ho, hos]
termination_by 2 * sizeOf ds
decreasing_by all_goals (rw [List.cons.sizeOf_spec]; omega)

end

/-- What happens while a program is read. A statement of the program that gives no line is on row
1. -/
def programEvents (ds : List Document) : List Event := eventsOfList .statement 1 ds

/-- Every token of a program is on the line given last before it. So all tokens are on the rows of
their own nodes if and only if the line given last before a token is always the row of its node,
whatever nodes have been read in between. -/
theorem program_rows_given_last {ds : List Document} {p : Program} (h : program ds = .ok p) :
    Token.rows p.tokens = Event.rows 1 (programEvents ds) ∧
      (Token.rows p.tokens = Event.dueRows (programEvents ds) ↔
        ∀ before due after, programEvents ds = before ++ .token due :: after →
          Event.lineAfter 1 before = due) := by
  have hrows : Token.rows p.tokens = Event.rows 1 (programEvents ds) := by
    rw [program, StateT.run'_eq] at h
    cases hrun : (statements ds [.key "statements"] 0).run 1 with
    | error i =>
      rw [hrun] at h
      cases h
    | ok result =>
      rw [hrun] at h
      cases h
      exact (statements_emit ds _ 0 1 1 result.1 result.2 hrun).1.symm
  refine ⟨hrows, ?_⟩
  rw [hrows]
  exact Event.rows_eq_dueRows_iff 1 (programEvents ds)

/-- A statement on line 3, and one without a line behind it. -/
def strayLine : List Document :=
  [.mapping [("type", .text "Print"), ("line", .int 3),
    ("expression", .mapping [("type", .text "Literal")])],
  .mapping [("type", .text "Print"), ("expression", .mapping [("type", .text "Literal")])]]

theorem strayLine_goes_on :
    ∃ p, program strayLine = .ok p ∧ Token.rows p.tokens = [3, 3, 3, 3] ∧
      Event.dueRows (programEvents strayLine) = [3, 3, 1, 1] := by
  let word (k : Keyword) : Token := ⟨.keyword k, k.spelling, 3, .null⟩
  let p : Program := [.print (word .log) (.literal (word .none) .null),
    .print (word .log) (.literal (word .none) .null)]
  have h : program strayLine = .ok p := by with_unfolding_all rfl
  have hevents : programEvents strayLine =
      [.line 3, .token 3, .token 3, .token 1, .token 1] := by
    with_unfolding_all rfl
  refine ⟨p, h, ?_, ?_⟩
  · rw [(program_rows_given_last h).1, hevents]
    decide
  · rw [hevents]
    decide

end Document

end Treescript
