import Treescript.Proofs.DocumentGrammar
import Treescript.Proofs.MovedTrees

/-!
# Documents with other lines

Two documents are the same but for lines if they differ in nothing but what mappings have under the
key `line`. They are read alike: both are refused for the same reason, or they give trees that
differ in nothing but the rows of tokens. Names, operators and parentheses are never without a text.
-/

namespace Treescript

namespace Document

def IsScalar : Document → Prop
  | null | bool _ | int _ | natural _ | float _ | text _ | timestamp | keyed => True
  | list _ | mapping _ => False

inductive SameButLines : Document → Document → Prop
  | scalar {d : Document} (h : d.IsScalar) : SameButLines d d
  | list {items items' : List Document} (h : List.Forall₂ SameButLines items items') :
    SameButLines (.list items) (.list items')
  | mapping {fields fields' : List (String × Document)}
    (h : ∀ key, key ≠ "line" →
      Option.Rel SameButLines (fields.lookup key) (fields'.lookup key)) :
    SameButLines (.mapping fields) (.mapping fields')

namespace SameButLines

variable {d d' : Document}

mutual

theorem refl (d : Document) : SameButLines d d := by
  match d with
  | .null | .bool _ | .int _ | .natural _ | .float _ | .text _ | .timestamp | .keyed =>
    exact .scalar trivial
  | .list items => exact .list (forall₂_refl items)
  | .mapping fields =>
    refine .mapping fun key _ => ?_
    cases h : fields.lookup key with
    | none => exact .none
    | some c =>
      have hlt : sizeOf c < sizeOf (Document.mapping fields) := sizeOf_lt_of_lookup h
      exact .some (refl c)
termination_by sizeOf d
decreasing_by all_goals simp_all

theorem forall₂_refl (ds : List Document) : List.Forall₂ SameButLines ds ds := by
  match ds with
  | [] => exact .nil
  | d :: ds => exact .cons (refl d) (forall₂_refl ds)
termination_by sizeOf ds

end

theorem null_iff (h : SameButLines d d') : d' = .null ↔ d = .null := by
  cases h <;> simp

theorem under {fields fields' : List (String × Document)}
    (h : SameButLines (.mapping fields) (.mapping fields')) {key : String} (hkey : key ≠ "line") :
    SameButLines (under fields key) (under fields' key) := by
  cases h with
  | scalar h => exact h.elim
  | mapping h =>
    have hrel := h key hkey
    rw [Document.under, Document.under]
    generalize fields.lookup key = c, fields'.lookup key = c' at hrel
    cases hrel with
    | none => exact .scalar trivial
    | some h => exact h

theorem typeWord {fields fields' : List (String × Document)}
    (h : SameButLines (.mapping fields) (.mapping fields')) (implied : Option String) :
    typeWord implied fields' = typeWord implied fields := by
  cases h with
  | scalar h => exact h.elim
  | mapping h =>
    have hrel := h "type" (by decide)
    rw [Document.typeWord, Document.typeWord]
    generalize fields.lookup "type" = c, fields'.lookup "type" = c' at hrel
    cases hrel with
    | none => rfl
    | some h => cases h <;> rfl

end SameButLines

/-- Both readings have refused, for the same reason, or have given related results. -/
inductive ReadAlike {α β : Type} (R : α → β → Prop) :
    Except Invalid (α × Int) → Except Invalid (β × Int) → Prop
  | ok {a : α} {b : β} (h : R a b) (line line' : Int) : ReadAlike R (.ok (a, line)) (.ok (b, line'))
  | error (i : Invalid) : ReadAlike R (.error i) (.error i)

/-- The readings end alike on any lines. -/
def Alike {α β : Type} (R : α → β → Prop) (r : Reading α) (r' : Reading β) : Prop :=
  ∀ line line', ReadAlike R (r.run line) (r'.run line')

namespace Alike

variable {α β γ δ : Type} {R : α → β → Prop} {S : γ → δ → Prop} {r : Reading α} {r' : Reading β}

protected theorem pure {a : α} {b : β} (h : R a b) : Alike R (pure a) (pure b) :=
  fun line line' => .ok h line line'

protected theorem throw (i : Invalid) : Alike R (throw i) (throw i) := fun _ _ => .error i

protected theorem get : Alike (fun _ _ => True) (get : Reading Int) (get : Reading Int) :=
  fun line line' => .ok trivial line line'

protected theorem bind {k : α → Reading γ} {k' : β → Reading δ} (h : Alike R r r')
    (hk : ∀ a b, R a b → Alike S (k a) (k' b)) : Alike S (r >>= k) (r' >>= k') := by
  intro line line'
  have hr := h line line'
  rw [StateT.run_bind, StateT.run_bind]
  generalize r.run line = result, r'.run line' = result' at hr
  cases hr with
  | ok hab line line' => exact hk _ _ hab line line'
  | error i => exact .error i

protected theorem map {f : α → γ} {f' : β → δ} (h : Alike R r r')
    (hf : ∀ a b, R a b → S (f a) (f' b)) : Alike S (f <$> r) (f' <$> r') := by
  rw [map_eq_pure_bind, map_eq_pure_bind]
  exact h.bind fun a b hab => .pure (hf a b hab)

theorem token (kind : TokenKind) (word : String) (literal : Literal) :
    Alike (fun t t' => t.Moved t' ∧ t.text = word) (Document.token kind word literal)
      (Document.token kind word literal) :=
  fun line line' => .ok ⟨⟨rfl, rfl, rfl⟩, rfl⟩ line line'

theorem keyword (k : Keyword) :
    Alike Token.Moved (Document.keyword k) (Document.keyword k) :=
  fun line line' => .ok ⟨rfl, rfl, rfl⟩ line line'

/-- A check before the rest, which both readings pass or neither. -/
theorem guarded {c : Prop} [Decidable c] {i : Invalid} {k : Unit → Reading γ}
    {k' : Unit → Reading δ} (h : Alike S (k ()) (k' ())) :
    Alike S (if c then throw i >>= k else k ()) (if c then throw i >>= k' else k' ()) := by
  by_cases hc : c
  · rw [if_pos hc, if_pos hc]
    exact (Alike.throw (R := fun _ _ => True) i).bind fun _ _ _ => h
  · rwa [if_neg hc, if_neg hc]

end Alike

/-- The nodes have the same type and the same fields but for the line. -/
structure Opened.SameButLines {d d' : Document} (n : Opened d) (n' : Opened d') : Prop where
  type : n'.type = n.type
  path : n'.path = n.path
  fields : Document.SameButLines (.mapping n.fields) (.mapping n'.fields)

theorem openAs_alike {d d' : Document} (h : SameButLines d d') (implied : Option String)
    (path : Path) :
    Alike Opened.SameButLines (openAs implied d path) (openAs implied d' path) := by
  have hd := h
  cases h with
  | scalar hscalar =>
    cases d with
    | list | mapping => exact hscalar.elim
    | _ => exact .throw _
  | list => exact .throw _
  | mapping =>
    intro line line'
    rw [run_openAs_mapping, run_openAs_mapping, hd.typeWord]
    split
    · exact .error _
    · exact .ok ⟨rfl, rfl, hd⟩ _ _

theorem toString_ne_empty (n : Int) : toString n ≠ "" := by
  cases n with
  | ofNat n => exact Nat.repr_ne_empty
  | negSucc n =>
    change "-" ++ n.succ.repr ≠ ""
    simp

namespace Opened.SameButLines

variable {d d' : Document} {n : Opened d} {n' : Opened d'}

theorem child (h : n.SameButLines n') (key : String) : n'.child key = n.child key := by
  rw [Opened.child, Opened.child, h.path]

theorem fail {α β : Type} {R : α → β → Prop} (h : n.SameButLines n') (fault : Fault) :
    Alike R (n.fail fault) (n'.fail fault) := by
  rw [Opened.fail, Opened.fail, h.path, h.type]
  exact .throw _

theorem field? (h : n.SameButLines n') {key : String} (hkey : key ≠ "line") :
    Option.Rel (fun c c' => Document.SameButLines c.1 c'.1) (n.field? key) (n'.field? key) := by
  have hunder := h.fields.under hkey
  obtain ⟨hfield, hnull⟩ | ⟨c, hfield, hc, hne⟩ := n.field?_cases key
  · obtain ⟨hfield', -⟩ | ⟨c', -, hc', hne'⟩ := n'.field?_cases key
    · rw [hfield, hfield']
      exact .none
    · rw [← hc', hnull] at hunder
      exact absurd (hunder.null_iff.2 rfl) hne'
  · obtain ⟨-, hnull'⟩ | ⟨c', hfield', hc', -⟩ := n'.field?_cases key
    · rw [← hc, hnull'] at hunder
      exact absurd (hunder.null_iff.1 rfl) hne
    · rw [hfield, hfield']
      exact .some (hc ▸ hc' ▸ hunder)

theorem required (h : n.SameButLines n') {key : String} (hkey : key ≠ "line") :
    Alike (fun c c' => Document.SameButLines c.1 c'.1) (n.required key) (n'.required key) := by
  have hfield := h.field? hkey
  rw [Opened.required, Opened.required]
  generalize n.field? key = c, n'.field? key = c' at hfield
  cases hfield with
  | none => exact h.fail _
  | some hc => exact .pure hc

theorem items (h : n.SameButLines n') {key : String} (hkey : key ≠ "line") (fault : Fault) :
    Alike (fun cs cs' => List.Forall₂ Document.SameButLines cs.1 cs'.1) (n.items key fault)
      (n'.items key fault) := by
  have hfield := h.field? hkey
  rw [Opened.items, Opened.items]
  generalize n.field? key = c, n'.field? key = c' at hfield
  cases hfield with
  | none => exact .pure .nil
  | @some c c' hc =>
    obtain ⟨c, hlt⟩ := c
    obtain ⟨c', hlt'⟩ := c'
    cases hc with
    | scalar hscalar =>
      cases c with
      | list | mapping => exact hscalar.elim
      | _ => exact h.fail _
    | list hitems => exact .pure hitems
    | mapping => exact h.fail _

end Opened.SameButLines

/-- Related tokens are the same up to the row, and tokens that are so are related if they have a
text. -/
structure Covers (K : Token → Token → Prop) : Prop where
  moved : ∀ t t', K t t' → t.Moved t'
  related : ∀ t t', t.Moved t' → t.text ≠ "" → K t t'

theorem covers_moved : Covers Token.Moved := ⟨fun _ _ h => h, fun _ _ h _ => h⟩

variable {K : Token → Token → Prop}

theorem Alike.placed (hK : Covers K) (kind : TokenKind) {word : String} (h : word ≠ "")
    (literal : Literal) :
    Alike K (Document.token kind word literal) (Document.token kind word literal) :=
  fun line line' => .ok (hK.related ⟨kind, word, line, literal⟩ ⟨kind, word, line', literal⟩
    ⟨rfl, rfl, rfl⟩ h) line line'

namespace Opened.SameButLines

variable {d d' : Document} {n : Opened d} {n' : Opened d'}

theorem name (hK : Covers K) (h : n.SameButLines n') {key : String} (hkey : key ≠ "line") :
    Alike K (n.name key) (n'.name key) := by
  have hfield := h.field? hkey
  rw [Opened.name, Opened.name]
  generalize n.field? key = c, n'.field? key = c' at hfield
  cases hfield with
  | none => exact h.fail _
  | @some c c' hc =>
    obtain ⟨c, hlt⟩ := c
    obtain ⟨c', hlt'⟩ := c'
    cases hc with
    | list | mapping => exact h.fail _
    | scalar hscalar =>
      cases c with
      | list | mapping => exact hscalar.elim
      | text s =>
        dsimp only
        split
        · exact h.fail _
        · next hs => exact .placed hK _ hs _
      | int i => exact .placed hK _ (toString_ne_empty _) _
      | _ => exact h.fail _

theorem nameList (h : n.SameButLines n') (key : String) {ds ds' : List Document}
    (hds : List.Forall₂ Document.SameButLines ds ds') (index : Nat) :
    Alike (List.Forall₂ Token.Moved) (n.nameList key ds index) (n'.nameList key ds' index) := by
  induction hds generalizing index with
  | nil => exact .pure .nil
  | @cons c _ _ _ hc _ ih =>
    cases hc with
    | list | mapping => exact h.fail _
    | scalar hscalar =>
      cases c with
      | list | mapping => exact hscalar.elim
      | text s =>
        rw [Opened.nameList, Opened.nameList, Opened.fail, Opened.fail, h.path, h.type]
        refine .guarded ?_
        exact (Alike.token _ _ _).bind fun t t' ht => (ih _).bind fun ts ts' hts =>
          .pure (.cons ht.1 hts)
      | _ => exact h.fail _

theorem names (h : n.SameButLines n') {key : String} (hkey : key ≠ "line") :
    Alike (List.Forall₂ Token.Moved) (n.names key) (n'.names key) :=
  (h.items hkey _).bind fun _ _ hcs => h.nameList key hcs 0

theorem operator (hK : Covers K) (h : n.SameButLines n') {table : String → Option Operator}
    (hempty : table "" = none) : Alike K (n.operator table) (n'.operator table) := by
  have hfield := h.field? (show "operator" ≠ "line" by decide)
  rw [Opened.operator, Opened.operator]
  generalize n.field? "operator" = c, n'.field? "operator" = c' at hfield
  -- what is no text is taken for the empty word, which is no operator
  cases hfield with
  | none =>
    simp only [hempty]
    exact h.fail _
  | @some c c' hc =>
    obtain ⟨c, hlt⟩ := c
    obtain ⟨c', hlt'⟩ := c'
    cases hc with
    | list | mapping =>
      simp only [hempty]
      exact h.fail _
    | scalar hscalar =>
      cases c with
      | list | mapping => exact hscalar.elim
      | text word =>
        dsimp only
        cases htable : table word with
        | none => exact h.fail _
        | some o =>
          refine .placed hK _ ?_ _
          rintro rfl
          cases hempty.symm.trans htable
      | _ =>
        simp only [hempty]
        exact h.fail _

theorem literal (h : n.SameButLines n') : Alike (Expr.Moved K) n.literal n'.literal := by
  have hfield := h.field? (show "value" ≠ "line" by decide)
  have hlit : ∀ (kind : TokenKind) (word : String) (l value : Literal), Alike (Expr.Moved K)
      (do return .literal (← Document.token kind word l) value)
      (do return .literal (← Document.token kind word l) value) := fun kind word l value =>
    (Alike.token kind word l).bind fun t t' ht => .pure (.literal ht.1 value)
  rw [Opened.literal, Opened.literal]
  generalize n.field? "value" = c, n'.field? "value" = c' at hfield
  cases hfield with
  | none => exact hlit _ _ _ _
  | @some c c' hc =>
    obtain ⟨c, hlt⟩ := c
    obtain ⟨c', hlt'⟩ := c'
    cases hc with
    | list | mapping => exact h.fail _
    | scalar hscalar =>
      cases c with
      | list | mapping => exact hscalar.elim
      | bool b => cases b <;> exact hlit _ _ _ _
      | int | float | text => exact hlit _ _ _ _
      | null | natural | timestamp | keyed => exact h.fail _

end Opened.SameButLines

mutual

theorem expression_alike (hK : Covers K) {d d' : Document} (h : SameButLines d d') (path : Path) :
    Alike (Expr.Moved K) (expression d path) (expression d' path) := by
  rw [expression, expression]
  refine (openAs_alike h none path).bind fun n n' hn => ?_
  have hname : Alike K (n.name "name") (n'.name "name") := hn.name hK (by decide)
  rw [hn.type]
  cases ExprType.ofName? n.type with
  | none => exact hn.fail _
  | some t =>
    cases t with
    | literal => exact hn.literal
    | «variable» => exact hname.bind fun t t' ht => .pure (.variable ht none)
    | parent => exact hname.bind fun t t' ht => .pure (.parent ht)
    | global => exact hname.bind fun t t' ht => .pure (.global ht)
    | self => exact (Alike.placed hK _ (by decide) _).bind fun t t' ht => .pure (.self ht none)
    | assign =>
      refine hname.bind fun t t' ht => ?_
      refine (hn.required (by decide)).bind fun ⟨value, hlt⟩ ⟨value', _⟩ hvalue => ?_
      rw [hn.child]
      exact (expression_alike hK hvalue _).bind fun e e' he => .pure (.assign ht he none)
    | unary =>
      refine (hn.operator hK rfl).bind fun t t' ht => ?_
      refine (hn.required (by decide)).bind fun ⟨right, hlt⟩ ⟨right', _⟩ hright => ?_
      rw [hn.child]
      exact (expression_alike hK hright _).bind fun e e' he => .pure (.unary ht he)
    | binary =>
      refine (hn.operator hK rfl).bind fun t t' ht => ?_
      refine (hn.required (by decide)).bind fun ⟨left, hlt⟩ ⟨left', _⟩ hleft => ?_
      rw [hn.child]
      refine (expression_alike hK hleft _).bind fun l l' hl => ?_
      refine (hn.required (by decide)).bind fun ⟨right, hlt⟩ ⟨right', _⟩ hright => ?_
      rw [hn.child]
      exact (expression_alike hK hright _).bind fun r r' hr => .pure (.binary hl ht hr)
    | logical =>
      refine (hn.operator hK rfl).bind fun t t' ht => ?_
      refine (hn.required (by decide)).bind fun ⟨left, hlt⟩ ⟨left', _⟩ hleft => ?_
      rw [hn.child]
      refine (expression_alike hK hleft _).bind fun l l' hl => ?_
      refine (hn.required (by decide)).bind fun ⟨right, hlt⟩ ⟨right', _⟩ hright => ?_
      rw [hn.child]
      exact (expression_alike hK hright _).bind fun r r' hr => .pure (.logical hl ht hr)
    | count =>
      refine (hn.operator hK rfl).bind fun t t' ht => hname.bind fun x x' hx => ?_
      exact .pure (.count ht (.variable hx none) hx none)
    | call =>
      refine (hn.required (by decide)).bind fun ⟨callee, hlt⟩ ⟨callee', _⟩ hcallee => ?_
      rw [hn.child]
      refine (expression_alike hK hcallee _).bind fun c c' hc => ?_
      refine (hn.items (by decide) _).bind fun ⟨args, hlt⟩ ⟨args', _⟩ hargs => ?_
      rw [hn.child]
      refine (expressions_alike hK hargs _ 0).bind fun es es' hes => ?_
      exact (Alike.placed hK _ (by decide) _).bind fun t t' ht => .pure (.call hc ht hes)
    | grouping =>
      refine (Alike.token _ _ _).bind fun t t' ht => ?_
      refine (hn.required (by decide)).bind fun ⟨inner, hlt⟩ ⟨inner', _⟩ hinner => ?_
      rw [hn.child]
      exact (expression_alike hK hinner _).bind fun e e' he => .pure (.group ht.1 he)
    | get =>
      refine (hn.required (by decide)).bind fun ⟨object, hlt⟩ ⟨object', _⟩ hobject => ?_
      rw [hn.child]
      refine (expression_alike hK hobject _).bind fun e e' he => ?_
      exact hname.bind fun t t' ht => .pure (.get he ht)
    | set =>
      refine (hn.required (by decide)).bind fun ⟨object, hlt⟩ ⟨object', _⟩ hobject => ?_
      rw [hn.child]
      refine (expression_alike hK hobject _).bind fun e e' he => hname.bind fun t t' ht => ?_
      refine (hn.required (by decide)).bind fun ⟨value, hlt⟩ ⟨value', _⟩ hvalue => ?_
      rw [hn.child]
      exact (expression_alike hK hvalue _).bind fun v v' hv => .pure (.set he ht hv)
termination_by sizeOf d

theorem expressions_alike (hK : Covers K) {ds ds' : List Document}
    (h : List.Forall₂ SameButLines ds ds') (path : Path) (index : Nat) :
    Alike (List.Forall₂ (Expr.Moved K)) (expressions ds path index)
      (expressions ds' path index) := by
  match h with
  | .nil =>
    rw [expressions]
    exact .pure .nil
  | .cons hd hrest =>
    rw [expressions, expressions]
    refine (expression_alike hK hd _).bind fun e e' he => ?_
    exact (expressions_alike hK hrest path _).bind fun es es' hes => .pure (.cons he hes)
termination_by sizeOf ds

end

namespace Opened.SameButLines

variable {d d' : Document} {n : Opened d} {n' : Opened d'}

theorem requiredExpr (hK : Covers K) (h : n.SameButLines n') {key : String} (hkey : key ≠ "line") :
    Alike (Expr.Moved K) (n.requiredExpr key) (n'.requiredExpr key) := by
  refine (h.required hkey).bind fun c c' hc => ?_
  rw [h.child]
  exact expression_alike hK hc _

theorem optionalExpr (hK : Covers K) (h : n.SameButLines n') {key : String} (hkey : key ≠ "line") :
    Alike (Option.Rel (Expr.Moved K)) (n.optionalExpr key) (n'.optionalExpr key) := by
  have hfield := h.field? hkey
  rw [Opened.optionalExpr, Opened.optionalExpr, h.child]
  generalize n.field? key = c, n'.field? key = c' at hfield
  cases hfield with
  | none => exact .pure .none
  | some hc => exact (expression_alike hK hc _).map fun _ _ he => .some he

theorem definition (hK : Covers K) (h : n.SameButLines n') :
    Alike (Definition.Moved K) n.definition n'.definition := by
  refine (Alike.keyword _).bind fun t t' ht => ?_
  refine (h.name covers_moved (by decide)).bind
    fun x x' hx => ?_
  exact (h.optionalExpr hK (by decide)).bind fun e e' he => .pure ⟨ht, hx, he⟩

end Opened.SameButLines

theorem members_alike (hK : Covers K) (path : Path) {ds ds' : List Document}
    (h : List.Forall₂ SameButLines ds ds') (index : Nat) :
    Alike (List.Forall₂ (Definition.Moved K)) (members path ds index)
      (members path ds' index) := by
  induction h generalizing index with
  | nil => exact .pure .nil
  | cons hd _ ih =>
    refine (openAs_alike hd _ _).bind fun n n' hn => ?_
    rw [Opened.fail, Opened.fail, hn.path, hn.type]
    refine .guarded ((hn.definition hK).bind fun x x' hx => ?_)
    exact (ih _).bind fun xs xs' hxs => .pure (.cons hx hxs)

mutual

theorem statement_alike (hK : Covers K) {d d' : Document} (h : SameButLines d d') (path : Path) :
    Alike (Stmt.Moved K) (statement d path) (statement d' path) := by
  rw [statement, statement]
  refine (openAs_alike h none path).bind fun n n' hn => ?_
  have hname : Alike Token.Moved (n.name "name") (n'.name "name") :=
    hn.name covers_moved (by decide)
  rw [hn.type]
  cases StmtType.ofName? n.type with
  | none => exact hn.fail _
  | some t =>
    cases t with
    | expression =>
      refine Alike.get.bind fun row row' _ => (hn.requiredExpr hK (by decide)).bind
        fun e e' he => .pure (.expression ⟨rfl, ?_, rfl⟩ he)
      exact (he.token hK.moved).text
    | print =>
      refine (Alike.keyword _).bind fun t t' ht => ?_
      exact (hn.requiredExpr hK (by decide)).bind fun e e' he => .pure (.print ht he)
    | define => exact (hn.definition hK).map fun x x' hx => .define hx
    | block =>
      refine (Alike.token _ _ _).bind fun t t' ht => ?_
      refine (hn.items (by decide) _).bind fun ⟨body, hlt⟩ ⟨body', _⟩ hbody => ?_
      rw [hn.child]
      exact (statements_alike hK hbody _ 0).bind fun ss ss' hss => .pure (.block ht.1 hss)
    | operation => exact (operation_alike hK hn).map fun o o' ho => .operation ho
    | conditional =>
      refine (Alike.keyword _).bind fun t t' ht => ?_
      refine (hn.requiredExpr hK (by decide)).bind fun c c' hc => ?_
      refine (hn.required (by decide)).bind fun ⟨branch, hlt⟩ ⟨branch', _⟩ hbranch => ?_
      rw [hn.child]
      refine (statement_alike hK hbranch _).bind fun b b' hb => ?_
      refine (hn.items (by decide) _).bind fun ⟨ors, hlt⟩ ⟨ors', _⟩ hors => ?_
      rw [hn.child]
      refine (arms_alike hK hors _ 0).bind fun as as' has => ?_
      have hfield := hn.field? (show "else" ≠ "line" by decide)
      rw [hn.child]
      generalize n.field? "else" = o, n'.field? "else" = o' at hfield
      cases hfield with
      | none => exact .pure (.conditional ht hc hb has .none)
      | @some o o' ho =>
        obtain ⟨o, hlt⟩ := o
        exact (statement_alike hK ho _).bind fun s s' hs =>
          .pure (.conditional ht hc hb has (.some hs))
    | loop =>
      refine (Alike.keyword _).bind fun t t' ht => ?_
      refine (hn.requiredExpr hK (by decide)).bind fun c c' hc => ?_
      refine (hn.required (by decide)).bind fun ⟨body, hlt⟩ ⟨body', _⟩ hbody => ?_
      rw [hn.child]
      exact (statement_alike hK hbody _).bind fun b b' hb => .pure (.loop ht hc hb)
    | «return» =>
      refine (Alike.keyword _).bind fun t t' ht => ?_
      exact (hn.optionalExpr hK (by decide)).bind fun e e' he => .pure (.return ht he)
    | object =>
      refine (Alike.keyword _).bind fun t t' ht => hname.bind fun x x' hx => ?_
      refine (hn.items (by decide) _).bind fun ⟨ms, hlt⟩ ⟨ms', _⟩ hms => ?_
      rw [hn.child]
      exact (methods_alike hK hms _ 0).bind fun os os' hos => .pure (.object ht hx hos)
    | «enum» =>
      refine (Alike.keyword _).bind fun t t' ht => hname.bind fun x x' hx => ?_
      exact (hn.names (by decide)).bind fun ts ts' hts => .pure (.enum ht hx hts)
    | form =>
      refine (Alike.keyword _).bind fun t t' ht => hname.bind fun x x' hx => ?_
      refine (hn.items (by decide) _).bind fun ⟨ms, hlt⟩ ⟨ms', _⟩ hms => ?_
      rw [hn.child]
      exact (members_alike hK _ hms 0).bind fun ds ds' hds => .pure (.form ht hx hds)
termination_by 2 * sizeOf d + 1
decreasing_by all_goals omega

theorem operation_alike (hK : Covers K) {d d' : Document} {n : Opened d} {n' : Opened d'}
    (hn : n.SameButLines n') : Alike (Operation.Moved K) (operation d n) (operation d' n') := by
  rw [operation, operation]
  refine (Alike.keyword _).bind fun t t' ht => ?_
  refine (hn.name covers_moved (by decide)).bind
    fun x x' hx => ?_
  refine (hn.names (by decide)).bind fun ts ts' hts => ?_
  refine (hn.items (by decide) _).bind fun ⟨body, hlt⟩ ⟨body', _⟩ hbody => ?_
  rw [hn.child]
  exact (statements_alike hK hbody _ 0).bind fun ss ss' hss => .pure (.mk ht hx hts hss)
termination_by 2 * sizeOf d
decreasing_by all_goals omega

theorem statements_alike (hK : Covers K) {ds ds' : List Document}
    (h : List.Forall₂ SameButLines ds ds') (path : Path) (index : Nat) :
    Alike (List.Forall₂ (Stmt.Moved K)) (statements ds path index)
      (statements ds' path index) := by
  match h with
  | .nil =>
    rw [statements]
    exact .pure .nil
  | .cons hd hrest =>
    rw [statements, statements]
    refine (statement_alike hK hd _).bind fun s s' hs => ?_
    exact (statements_alike hK hrest path _).bind fun ss ss' hss => .pure (.cons hs hss)
termination_by 2 * sizeOf ds
decreasing_by all_goals (rw [List.cons.sizeOf_spec]; omega)

theorem arms_alike (hK : Covers K) {ds ds' : List Document}
    (h : List.Forall₂ SameButLines ds ds') (path : Path) (index : Nat) :
    Alike (List.Forall₂ (Arm.Moved K)) (arms ds path index) (arms ds' path index) := by
  match h with
  | .nil =>
    rw [arms]
    exact .pure .nil
  | .cons hd hrest =>
    rw [arms, arms]
    refine (openAs_alike hd _ _).bind fun n n' hn => ?_
    refine (Alike.placed hK _ (by decide) _).bind fun t t' ht => ?_
    refine (hn.requiredExpr hK (by decide)).bind fun c c' hc => ?_
    refine (hn.required (by decide)).bind fun ⟨branch, hlt⟩ ⟨branch', _⟩ hbranch => ?_
    rw [hn.child]
    refine (statement_alike hK hbranch _).bind fun b b' hb => ?_
    exact (arms_alike hK hrest path _).bind fun as as' has => .pure (.cons (.mk ht hc hb) has)
termination_by 2 * sizeOf ds
decreasing_by all_goals (rw [List.cons.sizeOf_spec]; omega)

theorem methods_alike (hK : Covers K) {ds ds' : List Document}
    (h : List.Forall₂ SameButLines ds ds') (path : Path) (index : Nat) :
    Alike (List.Forall₂ (Operation.Moved K)) (methods ds path index)
      (methods ds' path index) := by
  match h with
  | .nil =>
    rw [methods]
    exact .pure .nil
  | .cons hd hrest =>
    rw [methods, methods]
    refine (openAs_alike hd _ _).bind fun n n' hn => ?_
    rw [Opened.fail, Opened.fail, hn.path, hn.type]
    refine .guarded ((operation_alike hK hn).bind fun o o' ho => ?_)
    exact (methods_alike hK hrest path _).bind fun os os' hos => .pure (.cons ho hos)
termination_by 2 * sizeOf ds
decreasing_by all_goals (rw [List.cons.sizeOf_spec]; omega)

end

/-- Programs that are the same but for lines are both refused, for the same reason, or are the same
up to rows. -/
theorem program_alike (hK : Covers K) {ds ds' : List Document}
    (h : List.Forall₂ SameButLines ds ds') :
    (∃ i, program ds = .error i ∧ program ds' = .error i) ∨
      ∃ p p', program ds = .ok p ∧ program ds' = .ok p' ∧ Program.Moved K p p' := by
  have hrun := statements_alike hK h [.key "statements"] 0 1 1
  rw [program, program, StateT.run'_eq, StateT.run'_eq]
  generalize (statements ds [.key "statements"] 0).run 1 = result,
    (statements ds' [.key "statements"] 0).run 1 = result' at hrun
  cases hrun with
  | ok hp line line' => exact .inr ⟨_, _, rfl, rfl, hp⟩
  | error i => exact .inl ⟨i, rfl, rfl⟩

end Document

end Treescript
