import Treescript.Proofs.DecodedPrograms

/-!
# Legible trees

What is needed to know a tree from its printed form, apart from the rows: every token is the one that
reading a document makes for the word in its place, names are made of letters and digits and cannot
be taken for constants, and there are no fractions, which may be printed like integers.
-/

namespace Treescript

/-- The token without its row. -/
def Token.unplaced (t : Token) : Token := { t with row := 0 }

def Token.ofKeyword (k : Keyword) : Token := ⟨.keyword k, k.spelling, 0, .null⟩

def Token.ofName (name : String) : Token := ⟨.identifier, name, 0, .null⟩

/-- Letters and digits of ASCII, a letter first, and not a word for a constant or for `self`. -/
structure Text.IsName (s : String) : Prop where
  letters : ∃ c cs, s.toList = c :: cs ∧ c.isAlpha ∧ ∀ d ∈ cs, d.isAlphanum
  word : s ∉ ["none", "true", "false", "self"]

structure Token.Legible (t : Token) : Prop where
  name : Text.IsName t.text
  unplaced : t.unplaced = .ofName t.text

/-- The token has a word of the table, and nothing else to it. -/
def Token.Spells (table : String → Option Operator) (t : Token) : Prop :=
  ∃ o, table t.text = some o ∧ t.unplaced = ⟨.operator o, t.text, 0, .null⟩

/-- The token of a constant. -/
def Literal.token : Literal → Token
  | .null => .ofKeyword .none
  | .bool true => .ofKeyword .true
  | .bool false => .ofKeyword .false
  | .int n => ⟨.int, toString n.toInt, 0, .int n⟩
  | .text s => ⟨.text, s, 0, .text s⟩
  | _ => .blank

def Literal.Legible : Literal → Prop
  | .null | .bool _ | .int _ | .text _ => True
  | .float _ | .word _ | .natural _ => False

mutual

def Expr.Legible : Expr → Prop
  | .hole => False
  | .literal token value => value.Legible ∧ token.unplaced = value.token
  | .variable name hops => name.Legible ∧ hops = none
  | .assign name value hops => name.Legible ∧ value.Legible ∧ hops = none
  | .unary operator right => operator.Spells Operator.unary? ∧ right.Legible
  | .binary left operator right =>
    operator.Spells Operator.binary? ∧ left.Legible ∧ right.Legible
  | .logical left operator right =>
    operator.Spells Operator.logical? ∧ left.Legible ∧ right.Legible
  | .count operator target name hops =>
    operator.Spells Operator.count? ∧ name.Legible ∧ target = .variable name none ∧ hops = none
  | .call callee paren args =>
    callee.Legible ∧ paren.unplaced = ⟨.mark .close, ")", 0, .null⟩ ∧ Expr.LegibleList args
  | .group token inner => token.unplaced = ⟨.mark .open, "(", 0, .null⟩ ∧ inner.Legible
  | .self keyword hops => keyword.unplaced = .ofKeyword .self ∧ hops = none
  | .get object name => object.Legible ∧ name.Legible
  | .set object name value => object.Legible ∧ name.Legible ∧ value.Legible
  | .parent name | .global name => name.Legible

def Expr.LegibleList : List Expr → Prop
  | [] => True
  | e :: es => e.Legible ∧ Expr.LegibleList es

end

def Expr.LegibleOptional (e? : Option Expr) : Prop := ∀ e ∈ e?, e.Legible

structure Definition.Legible (d : Definition) : Prop where
  token : d.token.unplaced = .ofKeyword .define
  name : d.name.Legible
  initial : Expr.LegibleOptional d.initial

mutual

def Stmt.Legible : Stmt → Prop
  | .hole | .arm _ => False
  | .expression token value => token.unplaced = .ofName value.token.text ∧ value.Legible
  | .print token value => token.unplaced = .ofKeyword .log ∧ value.Legible
  | .define d => d.Legible
  | .block token body => token.unplaced = ⟨.mark .bodyStart, "|", 0, .null⟩ ∧ Stmt.LegibleList body
  | .operation o => o.Legible
  | .conditional token condition branch arms otherwise =>
    token.unplaced = .ofKeyword .when ∧ condition.Legible ∧ branch.Legible ∧
      Arm.LegibleList arms ∧ Stmt.LegibleOptional otherwise
  | .loop token condition body =>
    token.unplaced = .ofKeyword .while ∧ condition.Legible ∧ body.Legible
  | .return token value => token.unplaced = .ofKeyword .return ∧ Expr.LegibleOptional value
  | .object token name methods =>
    token.unplaced = .ofKeyword .object ∧ name.Legible ∧ Operation.LegibleList methods
  | .enum token name elements =>
    token.unplaced = .ofKeyword .enum ∧ name.Legible ∧ ∀ t ∈ elements, t.Legible
  | .form token name members =>
    token.unplaced = .ofKeyword .form ∧ name.Legible ∧ ∀ d ∈ members, d.Legible

def Stmt.LegibleOptional : Option Stmt → Prop
  | none => True
  | some s => s.Legible

def Stmt.LegibleList : List Stmt → Prop
  | [] => True
  | s :: ss => s.Legible ∧ Stmt.LegibleList ss

def Operation.Legible : Operation → Prop
  | ⟨token, name, params, body⟩ =>
    token.unplaced = .ofKeyword .operation ∧ name.Legible ∧ (∀ t ∈ params, t.Legible) ∧
      Stmt.LegibleList body

def Operation.LegibleList : List Operation → Prop
  | [] => True
  | o :: os => o.Legible ∧ Operation.LegibleList os

def Arm.LegibleList : List Arm → Prop
  | [] => True
  | ⟨token, condition, branch⟩ :: rest =>
    (token.unplaced = .ofKeyword .or ∧ condition.Legible ∧ branch.Legible) ∧ Arm.LegibleList rest

end

def Program.Legible (p : Program) : Prop := Stmt.LegibleList p

/-- The names that a node has of its own. -/
def Node.names : Node → List Token
  | .expr (.variable name _) | .expr (.assign name _ _) | .expr (.count _ _ name _)
  | .expr (.get _ name) | .expr (.set _ name _) | .expr (.parent name) | .expr (.global name) =>
    [name]
  | .stmt (.define d) => [d.name]
  | .stmt (.operation o) => o.name :: o.params
  | .stmt (.object _ name _) | .stmt (.form _ name _) => [name]
  | .stmt (.enum _ name elements) => name :: elements
  | _ => []

def Node.IsFloat : Node → Prop
  | .expr (.literal _ (.float _)) => True
  | _ => False

/-- The names of the node are plain, and it is no fraction. -/
structure Node.Plain (n : Node) : Prop where
  names : ∀ t ∈ n.names, Text.IsName t.text
  literal : ¬ n.IsFloat

theorem not_isAlpha_of_isDigit {c : Char} (h : c.isDigit) : ¬ c.isAlpha := by
  change (c.val ≥ '0'.val && c.val ≤ '9'.val) = true at h
  change ¬ (decide (c.val ≥ 'A'.val ∧ c.val ≤ 'Z'.val) ||
    (c.val ≥ 'a'.val && c.val ≤ 'z'.val)) = true
  simp only [Bool.or_eq_true, Bool.and_eq_true, decide_eq_true_eq, UInt32.le_iff_toNat_le,
    ge_iff_le] at h ⊢
  have hA : 'A'.val.toNat = 65 := rfl
  have ha : 'a'.val.toNat = 97 := rfl
  have h9 : '9'.val.toNat = 57 := rfl
  omega

/-- A number is not a name. -/
theorem Text.not_isName_toString (i : Int) : ¬ Text.IsName (toString i) := by
  rintro ⟨⟨c, cs, hlist, hc, -⟩, -⟩
  cases i with
  | ofNat n =>
    change (Nat.repr n).toList = c :: cs at hlist
    rw [Nat.toList_repr] at hlist
    have hmem : c ∈ Nat.toDigits 10 n := hlist ▸ .head _
    exact not_isAlpha_of_isDigit (Nat.isDigit_of_mem_toDigits (by decide) (by decide) hmem) hc
  | negSucc n =>
    change ("-" ++ Nat.repr (n + 1)).toList = c :: cs at hlist
    rw [String.toList_append] at hlist
    cases hlist
    cases hc

namespace Document

theorem Yields.mono {α : Type} {Q R : α → Prop} {r : Reading α} (h : Yields Q r)
    (hQ : ∀ a, Q a → R a) : Yields R r :=
  fun line a line' hrun => hQ a (h line a line' hrun)

theorem token_yields (kind : TokenKind) (word : String) (literal : Literal) :
    Yields (fun t => t.unplaced = ⟨kind, word, 0, literal⟩) (token kind word literal) :=
  (Yields.any get).bind fun _ _ => .pure rfl

theorem keyword_yields (k : Keyword) : Yields (fun t => t.unplaced = .ofKeyword k) (keyword k) :=
  token_yields (.keyword k) k.spelling .null

/-- The token of a name is legible if its text is a name. -/
def NameToken (t : Token) : Prop := Text.IsName t.text → t.Legible

theorem nameToken_yields (s : String) : Yields NameToken (token .identifier s) := by
  refine (token_yields .identifier s .null).mono fun t ht h => ⟨h, ?_⟩
  have htext : t.text = s := congrArg Token.text ht
  rw [ht, htext]
  rfl

/-- The value is legible, provided that its nodes are plain. -/
def Decipherable {α : Type} (nodes : α → List Node) (Legible : α → Prop) (a : α) : Prop :=
  (∀ n ∈ nodes a, n.Plain) → Legible a

namespace Opened

variable {d : Document} (n : Opened d)

theorem name_yields (key : String) : Yields NameToken (n.name key) := by
  rw [Opened.name]
  cases n.field? key with
  | none => exact .throw _
  | some c =>
    obtain ⟨value, -⟩ := c
    cases value with
    | text s =>
      dsimp only
      split
      · exact .throw _
      · exact nameToken_yields s
    | int i =>
      refine (token_yields .int (toString i.toInt) (.int i)).mono fun t ht h => ?_
      have htext : t.text = toString i.toInt := congrArg Token.text ht
      rw [htext] at h
      exact absurd h (Text.not_isName_toString _)
    | null | bool b | natural n | float x | timestamp | list cs | mapping fields | keyed =>
      exact .throw _

theorem nameList_yields (key : String) (ds : List Document) (index : Nat) :
    Yields (fun ts => ∀ t ∈ ts, NameToken t) (n.nameList key ds index) := by
  induction ds generalizing index with
  | nil => exact .pure (List.forall_mem_nil _)
  | cons c rest ih =>
    cases c with
    | text s =>
      rw [nameList]
      refine .guarded ?_
      refine (nameToken_yields s).bind fun first hfirst => ?_
      exact (ih _).bind fun others hothers => .pure (List.forall_mem_cons.2 ⟨hfirst, hothers⟩)
    | _ => exact .throw _

theorem names_yields (key : String) :
    Yields (fun ts => ∀ t ∈ ts, NameToken t) (n.names key) :=
  (Yields.any _).bind fun cs _ => n.nameList_yields key cs.1 0

theorem operator_spells (table : String → Option Operator) :
    Yields (Token.Spells table) (n.operator table) := by
  rw [Opened.operator]
  split
  · next o ho => exact (Yields.any get).bind fun row _ => .pure ⟨o, ho, rfl⟩
  · exact .throw _

theorem literal_decipherable : Yields (Decipherable Expr.nodes Expr.Legible) n.literal := by
  have hlit : ∀ (r : Reading Token) (value : Literal), value.Legible →
      Yields (fun t => t.unplaced = value.token) r →
      Yields (Decipherable Expr.nodes Expr.Legible) (do return .literal (← r) value) :=
    fun r value hvalue hr => hr.bind fun _ ht => .pure fun _ => ⟨hvalue, ht⟩
  rw [Opened.literal]
  cases n.field? "value" with
  | none => exact hlit _ _ trivial (keyword_yields _)
  | some c =>
    obtain ⟨value, -⟩ := c
    cases value with
    | bool b => cases b <;> exact hlit _ _ trivial (keyword_yields _)
    | int i | text s => exact hlit _ _ trivial (token_yields _ _ _)
    | float x =>
      refine (Yields.any _).bind fun token _ => .pure fun h => ?_
      exact ((List.forall_mem_singleton.1 h).literal trivial).elim
    | null | natural n | timestamp | list cs | mapping fields | keyed => exact .throw _

end Opened

mutual

theorem expression_decipherable (d : Document) (path : Path) :
    Yields (Decipherable Expr.nodes Expr.Legible) (expression d path) := by
  rw [expression]
  refine (Yields.any _).bind fun n _ => ?_
  split
  case h_1 => exact n.literal_decipherable
  case h_2 =>
    refine (n.name_yields _).bind fun name hname => .pure fun h => ?_
    have hnames := (List.forall_mem_singleton.1 h).names
    exact ⟨hname (hnames name (.head _)), rfl⟩
  case h_3 =>
    refine (n.name_yields _).bind fun name hname => (Yields.any _).bind fun ⟨value, hlt⟩ _ => ?_
    refine (expression_decipherable value _).bind fun value hvalue => .pure fun h => ?_
    obtain ⟨hnode, hnodes⟩ := List.forall_mem_cons.1 h
    exact ⟨hname (hnode.names name (.head _)), hvalue hnodes, rfl⟩
  case h_4 =>
    refine (n.operator_spells _).bind fun operator ho => ?_
    refine (Yields.any _).bind fun ⟨right, hlt⟩ _ => ?_
    refine (expression_decipherable right _).bind fun right hright => .pure fun h => ?_
    exact ⟨ho, hright (List.forall_mem_cons.1 h).2⟩
  case h_5 | h_6 =>
    refine (n.operator_spells _).bind fun operator ho => ?_
    refine (Yields.any _).bind fun ⟨left, hlt⟩ _ => ?_
    refine (expression_decipherable left _).bind fun left hleft => ?_
    refine (Yields.any _).bind fun ⟨right, hlt⟩ _ => ?_
    refine (expression_decipherable right _).bind fun right hright => .pure fun h => ?_
    obtain ⟨hl, hr⟩ := List.forall_mem_append.1 (List.forall_mem_cons.1 h).2
    exact ⟨ho, hleft hl, hright hr⟩
  case h_7 =>
    refine (n.operator_spells _).bind fun operator ho => ?_
    refine (n.name_yields _).bind fun name hname => .pure fun h => ?_
    have hnode := (List.forall_mem_cons.1 h).1
    exact ⟨ho, hname (hnode.names name (.head _)), rfl, rfl⟩
  case h_8 =>
    refine (Yields.any _).bind fun ⟨callee, hlt⟩ _ => ?_
    refine (expression_decipherable callee _).bind fun callee hcallee => ?_
    refine (Yields.any _).bind fun ⟨args, hlt⟩ _ => ?_
    refine (expressions_decipherable args _ _).bind fun args hargs => ?_
    refine (token_yields _ _ _).bind fun paren hparen => .pure fun h => ?_
    obtain ⟨hc, ha⟩ := List.forall_mem_append.1 (List.forall_mem_cons.1 h).2
    exact ⟨hcallee hc, hparen, hargs ha⟩
  case h_9 =>
    refine (token_yields _ _ _).bind fun opening hopening => ?_
    refine (Yields.any _).bind fun ⟨inner, hlt⟩ _ => ?_
    refine (expression_decipherable inner _).bind fun inner hinner => .pure fun h => ?_
    exact ⟨hopening, hinner (List.forall_mem_cons.1 h).2⟩
  case h_10 => exact (keyword_yields _).bind fun keyword hkeyword => .pure fun _ => ⟨hkeyword, rfl⟩
  case h_11 =>
    refine (Yields.any _).bind fun ⟨object, hlt⟩ _ => ?_
    refine (expression_decipherable object _).bind fun object hobject => ?_
    refine (n.name_yields _).bind fun name hname => .pure fun h => ?_
    obtain ⟨hnode, hnodes⟩ := List.forall_mem_cons.1 h
    exact ⟨hobject hnodes, hname (hnode.names name (.head _))⟩
  case h_12 =>
    refine (Yields.any _).bind fun ⟨object, hlt⟩ _ => ?_
    refine (expression_decipherable object _).bind fun object hobject => ?_
    refine (n.name_yields _).bind fun name hname => (Yields.any _).bind fun ⟨value, hlt⟩ _ => ?_
    refine (expression_decipherable value _).bind fun value hvalue => .pure fun h => ?_
    obtain ⟨hnode, hnodes⟩ := List.forall_mem_cons.1 h
    obtain ⟨ho, hv⟩ := List.forall_mem_append.1 hnodes
    exact ⟨hobject ho, hname (hnode.names name (.head _)), hvalue hv⟩
  case h_13 | h_14 =>
    refine (n.name_yields _).bind fun name hname => .pure fun h => ?_
    have hnames := (List.forall_mem_singleton.1 h).names
    exact hname (hnames name (.head _))
  case h_15 => exact .throw _
termination_by sizeOf d

theorem expressions_decipherable (ds : List Document) (path : Path) (index : Nat) :
    Yields (Decipherable Expr.nodesOfList Expr.LegibleList) (expressions ds path index) := by
  match ds with
  | [] =>
    rw [expressions]
    exact .pure fun _ => trivial
  | d :: rest =>
    rw [expressions]
    refine (expression_decipherable d _).bind fun first hfirst => ?_
    refine (expressions_decipherable rest path _).bind fun others hothers => .pure fun h => ?_
    obtain ⟨hf, ho⟩ := List.forall_mem_append.1 h
    exact ⟨hfirst hf, hothers ho⟩
termination_by sizeOf ds

end

namespace Opened

variable {d : Document} (n : Opened d)

theorem requiredExpr_decipherable (key : String) :
    Yields (Decipherable Expr.nodes Expr.Legible) (n.requiredExpr key) :=
  (Yields.any _).bind fun c _ => expression_decipherable c.1 _

theorem optionalExpr_decipherable (key : String) :
    Yields (Decipherable (fun e? => e?.toList.flatMap Expr.nodes) Expr.LegibleOptional)
      (n.optionalExpr key) := by
  rw [optionalExpr]
  cases n.field? key with
  | none =>
    refine .pure fun _ => ?_
    rintro _ ⟨⟩
  | some c =>
    refine (expression_decipherable c.1 _).map fun e he h => ?_
    rintro _ ⟨⟩
    simp only [Option.toList_some, List.flatMap_singleton] at h
    exact he h

theorem definition_decipherable :
    Yields (Decipherable Definition.nodes Definition.Legible) n.definition := by
  refine (keyword_yields _).bind fun token htoken => (n.name_yields _).bind fun name hname => ?_
  refine (n.optionalExpr_decipherable _).bind fun initial hinitial => .pure fun h => ?_
  obtain ⟨hnode, hnodes⟩ := List.forall_mem_cons.1 h
  exact ⟨htoken, hname (hnode.names name (.head _)), hinitial hnodes⟩

end Opened

theorem members_decipherable (path : Path) (ds : List Document) (index : Nat) :
    Yields (Decipherable (List.flatMap Definition.nodes) fun ds => ∀ d ∈ ds, d.Legible)
      (members path ds index) := by
  induction ds generalizing index with
  | nil => exact .pure fun _ => List.forall_mem_nil _
  | cons d rest ih =>
    refine (Yields.any _).bind fun n _ => .guarded ?_
    refine n.definition_decipherable.bind fun first hfirst => ?_
    refine (ih _).bind fun others hothers => .pure fun h => ?_
    rw [List.flatMap_cons] at h
    obtain ⟨hf, ho⟩ := List.forall_mem_append.1 h
    exact List.forall_mem_cons.2 ⟨hfirst hf, hothers ho⟩

mutual

theorem statement_decipherable (d : Document) (path : Path) :
    Yields (Decipherable Stmt.nodes Stmt.Legible) (statement d path) := by
  rw [statement]
  refine (Yields.any _).bind fun n _ => ?_
  split
  case h_1 =>
    refine (Yields.any _).bind fun row _ => ?_
    refine (n.requiredExpr_decipherable _).bind fun value hvalue => .pure fun h => ?_
    exact ⟨rfl, hvalue (List.forall_mem_cons.1 h).2⟩
  case h_2 =>
    refine (keyword_yields _).bind fun token htoken => ?_
    refine (n.requiredExpr_decipherable _).bind fun value hvalue => .pure fun h => ?_
    exact ⟨htoken, hvalue (List.forall_mem_cons.1 h).2⟩
  case h_3 => exact n.definition_decipherable.map fun definition hdefinition => hdefinition
  case h_4 =>
    refine (token_yields _ _ _).bind fun token htoken => (Yields.any _).bind fun ⟨body, hlt⟩ _ => ?_
    refine (statements_decipherable body _ _).bind fun body hbody => .pure fun h => ?_
    exact ⟨htoken, hbody (List.forall_mem_cons.1 h).2⟩
  case h_5 => exact (operation_decipherable d n).map fun operation hoperation => hoperation
  case h_6 =>
    refine (keyword_yields _).bind fun token htoken => ?_
    refine (n.requiredExpr_decipherable _).bind fun condition hcondition => ?_
    refine (Yields.any _).bind fun ⟨branch, hlt⟩ _ => ?_
    refine (statement_decipherable branch _).bind fun branch hbranch => ?_
    refine (Yields.any _).bind fun ⟨ors, hlt⟩ _ => ?_
    refine (arms_decipherable ors _ _).bind fun arms harms => ?_
    have hparts : ∀ otherwise, (∀ n ∈ Stmt.nodes (.conditional token condition branch arms otherwise),
        n.Plain) → Stmt.LegibleOptional otherwise →
        Stmt.Legible (.conditional token condition branch arms otherwise) := by
      intro otherwise h hotherwise
      rw [Stmt.nodes.eq_def] at h
      simp only [List.forall_mem_cons, List.forall_mem_append] at h
      obtain ⟨-, ⟨⟨hc, hb⟩, ha⟩, -⟩ := h
      exact ⟨htoken, hcondition hc, hbranch hb, harms ha, hotherwise⟩
    split
    · exact .pure fun h => hparts none h trivial
    · next otherwise hlt _ =>
      refine (statement_decipherable otherwise _).bind fun otherwise hotherwise => .pure fun h => ?_
      obtain ⟨-, ho⟩ := List.forall_mem_append.1 (List.forall_mem_cons.1 h).2
      exact hparts (some otherwise) h (hotherwise ho)
  case h_7 =>
    refine (keyword_yields _).bind fun token htoken => ?_
    refine (n.requiredExpr_decipherable _).bind fun condition hcondition => ?_
    refine (Yields.any _).bind fun ⟨body, hlt⟩ _ => ?_
    refine (statement_decipherable body _).bind fun body hbody => .pure fun h => ?_
    obtain ⟨hc, hb⟩ := List.forall_mem_append.1 (List.forall_mem_cons.1 h).2
    exact ⟨htoken, hcondition hc, hbody hb⟩
  case h_8 =>
    refine (keyword_yields _).bind fun token htoken => ?_
    refine (n.optionalExpr_decipherable _).bind fun value hvalue => .pure fun h => ?_
    exact ⟨htoken, hvalue (List.forall_mem_cons.1 h).2⟩
  case h_9 =>
    refine (keyword_yields _).bind fun token htoken => (n.name_yields _).bind fun name hname => ?_
    refine (Yields.any _).bind fun ⟨ms, hlt⟩ _ => ?_
    refine (methods_decipherable ms _ _).bind fun methods hmethods => .pure fun h => ?_
    obtain ⟨hnode, hnodes⟩ := List.forall_mem_cons.1 h
    exact ⟨htoken, hname (hnode.names name (.head _)), hmethods hnodes⟩
  case h_10 =>
    refine (keyword_yields _).bind fun token htoken => (n.name_yields _).bind fun name hname => ?_
    refine (n.names_yields _).bind fun elements helements => .pure fun h => ?_
    obtain ⟨hn, he⟩ := List.forall_mem_cons.1 (List.forall_mem_singleton.1 h).names
    exact ⟨htoken, hname hn, fun t ht => helements t ht (he t ht)⟩
  case h_11 =>
    refine (keyword_yields _).bind fun token htoken => (n.name_yields _).bind fun name hname => ?_
    refine (Yields.any _).bind fun ⟨ms, hlt⟩ _ => ?_
    refine (members_decipherable _ ms _).bind fun members hmembers => .pure fun h => ?_
    obtain ⟨hnode, hnodes⟩ := List.forall_mem_cons.1 h
    exact ⟨htoken, hname (hnode.names name (.head _)), hmembers hnodes⟩
  case h_12 => exact .throw _
termination_by 2 * sizeOf d + 1
decreasing_by all_goals omega

theorem operation_decipherable (d : Document) (n : Opened d) :
    Yields (Decipherable Operation.nodes Operation.Legible) (operation d n) := by
  rw [operation]
  refine (keyword_yields _).bind fun token htoken => (n.name_yields _).bind fun name hname => ?_
  refine (n.names_yields _).bind fun params hparams => (Yields.any _).bind fun ⟨body, hlt⟩ _ => ?_
  refine (statements_decipherable body _ _).bind fun body hbody => .pure fun h => ?_
  obtain ⟨hnode, hnodes⟩ := List.forall_mem_cons.1 h
  obtain ⟨hn, hp⟩ := List.forall_mem_cons.1 hnode.names
  exact ⟨htoken, hname hn, fun t ht => hparams t ht (hp t ht), hbody hnodes⟩
termination_by 2 * sizeOf d
decreasing_by all_goals omega

theorem statements_decipherable (ds : List Document) (path : Path) (index : Nat) :
    Yields (Decipherable Stmt.nodesOfList Stmt.LegibleList) (statements ds path index) := by
  match ds with
  | [] =>
    rw [statements]
    exact .pure fun _ => trivial
  | d :: rest =>
    rw [statements]
    refine (statement_decipherable d _).bind fun first hfirst => ?_
    refine (statements_decipherable rest path _).bind fun others hothers => .pure fun h => ?_
    obtain ⟨hf, ho⟩ := List.forall_mem_append.1 h
    exact ⟨hfirst hf, hothers ho⟩
termination_by 2 * sizeOf ds
decreasing_by all_goals (rw [List.cons.sizeOf_spec]; omega)

theorem arms_decipherable (ds : List Document) (path : Path) (index : Nat) :
    Yields (Decipherable Arm.nodesOfList Arm.LegibleList) (arms ds path index) := by
  match ds with
  | [] =>
    rw [arms]
    exact .pure fun _ => trivial
  | d :: rest =>
    rw [arms]
    refine (Yields.any _).bind fun n _ => (keyword_yields _).bind fun token htoken => ?_
    refine (n.requiredExpr_decipherable _).bind fun condition hcondition => ?_
    refine (Yields.any _).bind fun ⟨branch, hlt⟩ _ => ?_
    refine (statement_decipherable branch _).bind fun branch hbranch => ?_
    refine (arms_decipherable rest path _).bind fun others hothers => .pure fun h => ?_
    obtain ⟨hf, ho⟩ := List.forall_mem_append.1 h
    obtain ⟨hc, hb⟩ := List.forall_mem_append.1 (List.forall_mem_cons.1 hf).2
    exact ⟨⟨htoken, hcondition hc, hbranch hb⟩, hothers ho⟩
termination_by 2 * sizeOf ds
decreasing_by all_goals (rw [List.cons.sizeOf_spec]; omega)

theorem methods_decipherable (ds : List Document) (path : Path) (index : Nat) :
    Yields (Decipherable Operation.nodesOfList Operation.LegibleList) (methods ds path index) := by
  match ds with
  | [] =>
    rw [methods]
    exact .pure fun _ => trivial
  | d :: rest =>
    rw [methods]
    refine (Yields.any _).bind fun n _ => .guarded ?_
    refine (operation_decipherable d n).bind fun first hfirst => ?_
    refine (methods_decipherable rest path _).bind fun others hothers => .pure fun h => ?_
    obtain ⟨hf, ho⟩ := List.forall_mem_append.1 h
    exact ⟨hfirst hf, hothers ho⟩
termination_by 2 * sizeOf ds
decreasing_by all_goals (rw [List.cons.sizeOf_spec]; omega)

end

/-- A program that has been read is legible if its nodes are plain. -/
theorem program_legible {ds : List Document} {p : Program} (h : program ds = .ok p)
    (hp : ∀ n ∈ p.nodes, n.Plain) : p.Legible := by
  rw [program, StateT.run'_eq] at h
  cases hrun : (statements ds [.key "statements"] 0).run 1 with
  | error i =>
    rw [hrun] at h
    cases h
  | ok result =>
    rw [hrun] at h
    obtain rfl := Except.ok.inj h
    exact statements_decipherable ds _ 0 1 result.1 result.2 hrun hp

end Document

end Treescript
