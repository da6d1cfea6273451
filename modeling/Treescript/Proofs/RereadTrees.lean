import Treescript.Proofs.PrintedTrees
import Treescript.Proofs.ReachedMachines

/-!
# Trees read back from their printed form

A legible tree is known from the text that it is printed as, up to the rows of its tokens: the text
reads as nested lists of words, and from these the tree can be made again. The head of a list says
what node it is, sometimes together with the number of the parts. What is made of lists that are not
printed trees does not matter.
-/

namespace Treescript

mutual

/-- The tree without the rows of its tokens. -/
def Expr.unplaced : Expr → Expr
  | .hole => .hole
  | .literal token value => .literal token.unplaced value
  | .variable name hops => .variable name.unplaced hops
  | .assign name value hops => .assign name.unplaced value.unplaced hops
  | .unary operator right => .unary operator.unplaced right.unplaced
  | .binary left operator right => .binary left.unplaced operator.unplaced right.unplaced
  | .logical left operator right => .logical left.unplaced operator.unplaced right.unplaced
  | .count operator target name hops =>
    .count operator.unplaced target.unplaced name.unplaced hops
  | .call callee paren args => .call callee.unplaced paren.unplaced (Expr.unplacedList args)
  | .group token inner => .group token.unplaced inner.unplaced
  | .self keyword hops => .self keyword.unplaced hops
  | .get object name => .get object.unplaced name.unplaced
  | .set object name value => .set object.unplaced name.unplaced value.unplaced
  | .parent name => .parent name.unplaced
  | .global name => .global name.unplaced

def Expr.unplacedList : List Expr → List Expr
  | [] => []
  | e :: es => e.unplaced :: Expr.unplacedList es

end

def Definition.unplaced (d : Definition) : Definition :=
  ⟨d.token.unplaced, d.name.unplaced, d.initial.map Expr.unplaced⟩

mutual

def Stmt.unplaced : Stmt → Stmt
  | .hole => .hole
  | .expression token value => .expression token.unplaced value.unplaced
  | .print token value => .print token.unplaced value.unplaced
  | .define d => .define d.unplaced
  | .block token body => .block token.unplaced (Stmt.unplacedList body)
  | .operation o => .operation o.unplaced
  | .conditional token condition branch arms otherwise =>
    .conditional token.unplaced condition.unplaced branch.unplaced (Arm.unplacedList arms)
      (match otherwise with
        | none => none
        | some s => some s.unplaced)
  | .arm a => .arm a.unplaced
  | .loop token condition body => .loop token.unplaced condition.unplaced body.unplaced
  | .return keyword value => .return keyword.unplaced (value.map Expr.unplaced)
  | .object token name methods =>
    .object token.unplaced name.unplaced (Operation.unplacedList methods)
  | .enum token name elements => .enum token.unplaced name.unplaced (elements.map Token.unplaced)
  | .form token name members =>
    .form token.unplaced name.unplaced (members.map Definition.unplaced)

def Stmt.unplacedList : List Stmt → List Stmt
  | [] => []
  | s :: ss => s.unplaced :: Stmt.unplacedList ss

def Operation.unplaced : Operation → Operation
  | ⟨token, name, params, body⟩ =>
    ⟨token.unplaced, name.unplaced, params.map Token.unplaced, Stmt.unplacedList body⟩

def Operation.unplacedList : List Operation → List Operation
  | [] => []
  | o :: os => o.unplaced :: Operation.unplacedList os

def Arm.unplaced : Arm → Arm
  | ⟨token, condition, branch⟩ => ⟨token.unplaced, condition.unplaced, branch.unplaced⟩

def Arm.unplacedList : List Arm → List Arm
  | [] => []
  | a :: rest => a.unplaced :: Arm.unplacedList rest

end

def Program.unplaced (p : Program) : Program := Stmt.unplacedList p

/-! ## Words -/

/-- The number that a sign and digits stand for. -/
def Text.readInt : List Char → Int
  | '-' :: digits => -(Nat.ofDigitChars 10 digits 0 : Int)
  | digits => Nat.ofDigitChars 10 digits 0

theorem Text.readInt_toString (i : Int) : Text.readInt (toString i).toList = i := by
  cases i with
  | ofNat n =>
    change Text.readInt (Nat.repr n).toList = n
    rw [Nat.toList_repr, Text.readInt]
    · rw [Nat.ofDigitChars_ten_toDigits]
    · intro digits hdigits
      have hmem : '-' ∈ Nat.toDigits 10 n := hdigits ▸ .head _
      cases Nat.isDigit_of_mem_toDigits (by decide) (by decide) hmem
  | negSucc n =>
    change Text.readInt ("-" ++ Nat.repr (n + 1)).toList = Int.negSucc n
    rw [String.toList_append, Nat.toList_repr]
    change -(Nat.ofDigitChars 10 (Nat.toDigits 10 (n + 1)) 0 : Int) = Int.negSucc n
    rw [Nat.ofDigitChars_ten_toDigits]
    rfl

/-- A number does not begin like any other word. -/
theorem Text.toList_toString (i : Int) : ∃ c cs, (toString i).toList = c :: cs ∧ ¬ c.isAlpha ∧
    c ≠ '"' ∧ c ≠ '^' ∧ c ≠ '$' := by
  cases i with
  | ofNat n =>
    obtain ⟨c, cs, hlist⟩ := List.exists_cons_of_ne_nil (Nat.toDigits_ne_nil (n := n) (b := 10))
    have hmem : c ∈ Nat.toDigits 10 n := hlist ▸ .head _
    have hdigit := Nat.isDigit_of_mem_toDigits (by decide) (by decide) hmem
    refine ⟨c, cs, Nat.toList_repr.trans hlist, not_isAlpha_of_isDigit hdigit, ?_, ?_, ?_⟩
    all_goals
      rintro rfl
      cases hdigit
  | negSucc n => exact ⟨'-', (Nat.repr (n + 1)).toList, String.toList_append, by decide⟩

/-- The expression that a constant is. -/
def Expr.ofLiteral (value : Literal) : Expr := .literal value.token value

/-- The expression that is printed as a word of letters. -/
def Expr.ofLetters : String → Expr
  | "none" => .ofLiteral .null
  | "true" => .ofLiteral (.bool true)
  | "false" => .ofLiteral (.bool false)
  | "self" => .self (.ofKeyword .self) none
  | name => .variable (.ofName name) none

/-- The expression that is printed as a word. -/
def Expr.ofWord (word : String) : Expr :=
  match word.toList with
  | '"' :: _ => .ofLiteral (.text (Text.unquote word))
  | '^' :: name => .parent (.ofName (String.ofList name))
  | '$' :: name => .global (.ofName (String.ofList name))
  | c :: rest =>
    if c.isAlpha then .ofLetters word
    else .ofLiteral (.int (Int64.ofInt (Text.readInt (c :: rest))))
  | [] => .hole

namespace Expr

theorem ofWord_name {t : Token} (h : t.Legible) : ofWord t.text = .variable t.unplaced none := by
  obtain ⟨c, cs, hlist, hc, -⟩ := h.name.letters
  have hword := h.name.word
  rw [ofWord, hlist, h.unplaced]
  split
  · next heq => cases heq; cases hc
  · next heq => cases heq; cases hc
  · next heq => cases heq; cases hc
  · next heq =>
    cases heq
    rw [if_pos hc, ofLetters]
    all_goals
      intro heq
      simp [heq] at hword
  · next heq => cases heq

theorem ofWord_literal {l : Literal} (h : l.Legible) : ofWord l.printed = ofLiteral l := by
  cases l with
  | null => rfl
  | bool b => cases b <;> rfl
  | int n =>
    obtain ⟨c, cs, hlist, hc, hquote, hparent, hglobal⟩ := Text.toList_toString n.toInt
    have hint := Text.readInt_toString n.toInt
    change ofWord (toString n.toInt) = _
    rw [hlist] at hint
    rw [ofWord, hlist]
    split
    · next heq => cases heq; exact absurd rfl hquote
    · next heq => cases heq; exact absurd rfl hparent
    · next heq => cases heq; exact absurd rfl hglobal
    · next heq =>
      cases heq
      rw [if_neg hc, hint, Int64.ofInt_toInt]
    · next heq => cases heq
  | text s =>
    change ofWord (Text.quote s) = _
    rw [ofWord, Text.toList_quote]
    change ofLiteral (.text (Text.unquote (Text.quote s))) = _
    rw [Text.unquote_quote]
  | float x | word n | natural n => exact h.elim

theorem ofWord_parent {t : Token} (h : t.Legible) :
    ofWord ("^" ++ t.text) = .parent t.unplaced := by
  rw [ofWord, String.toList_append]
  change Expr.parent (.ofName (String.ofList t.text.toList)) = _
  rw [String.ofList_toList, h.unplaced]

theorem ofWord_global {t : Token} (h : t.Legible) :
    ofWord ("$" ++ t.text) = .global t.unplaced := by
  rw [ofWord, String.toList_append]
  change Expr.global (.ofName (String.ofList t.text.toList)) = _
  rw [String.ofList_toList, h.unplaced]

end Expr

/-! ## Lists -/

/-- The expression with one operand. -/
def Expr.prefixed (word : String) (operand : Expr) : Expr :=
  match Operator.unary? word, Operator.count? word, operand with
  | some o, _, right => .unary ⟨.operator o, word, 0, .null⟩ right
  | none, some o, .variable name hops =>
    .count ⟨.operator o, word, 0, .null⟩ (.variable name hops) name none
  | none, _, _ => .hole

/-- The expression with two operands. -/
def Expr.between (word : String) (left right : Expr) : Expr :=
  match Operator.binary? word, Operator.logical? word with
  | some o, _ => .binary left ⟨.operator o, word, 0, .null⟩ right
  | none, some o => .logical left ⟨.operator o, word, 0, .null⟩ right
  | none, none => .hole

/-- The expression with a head and parts. -/
def Expr.ofParts (head : String) (parts : List Expr) : Expr :=
  match head.toList, parts with
  | '.' :: name, [object] => .get object (.ofName (String.ofList name))
  | '.' :: name, [_, object, value] => .set object (.ofName (String.ofList name)) value
  | _, _ =>
    match head, parts with
    | "=", [.variable name _, value] => .assign name value none
    | "call", callee :: args => .call callee ⟨.mark .close, ")", 0, .null⟩ args
    | "group", [inner] => .group ⟨.mark .open, "(", 0, .null⟩ inner
    | _, [operand] => .prefixed head operand
    | _, [left, right] => .between head left right
    | _, _ => .hole

mutual

def Expr.ofSexp : Sexp → Expr
  | .word text => .ofWord text
  | .list (.word head :: parts) => .ofParts head (Expr.ofSexps parts)
  | .list _ => .hole

def Expr.ofSexps : List Sexp → List Expr
  | [] => []
  | s :: ss => Expr.ofSexp s :: Expr.ofSexps ss

end

namespace Expr

theorem ofParts_unary {t : Token} (h : t.Spells Operator.unary?) (right : Expr) :
    ofParts t.text [right] = .unary t.unplaced right := by
  obtain ⟨o, ho, hunplaced⟩ := h
  rw [hunplaced]
  generalize t.text = word at ho
  unfold Operator.unary? at ho
  split at ho <;> cases ho <;> rfl

theorem ofParts_count {t : Token} (h : t.Spells Operator.count?) (name : Token) :
    ofParts t.text [.variable name none] =
      .count t.unplaced (.variable name none) name none := by
  obtain ⟨o, ho, hunplaced⟩ := h
  rw [hunplaced]
  generalize t.text = word at ho
  unfold Operator.count? at ho
  split at ho <;> cases ho <;> rfl

theorem ofParts_binary {t : Token} (h : t.Spells Operator.binary?) (left right : Expr) :
    ofParts t.text [left, right] = .binary left t.unplaced right := by
  obtain ⟨o, ho, hunplaced⟩ := h
  rw [hunplaced]
  generalize t.text = word at ho
  unfold Operator.binary? at ho
  split at ho <;> cases ho <;> rfl

theorem ofParts_logical {t : Token} (h : t.Spells Operator.logical?) (left right : Expr) :
    ofParts t.text [left, right] = .logical left t.unplaced right := by
  obtain ⟨o, ho, hunplaced⟩ := h
  rw [hunplaced]
  generalize t.text = word at ho
  unfold Operator.logical? at ho
  split at ho <;> cases ho <;> rfl

theorem ofParts_get {t : Token} (h : t.Legible) (object : Expr) :
    ofParts ("." ++ t.text) [object] = .get object t.unplaced := by
  rw [ofParts.eq_def, String.toList_append]
  change Expr.get object (.ofName (String.ofList t.text.toList)) = _
  rw [String.ofList_toList, h.unplaced]

theorem ofParts_set {t : Token} (h : t.Legible) (equals object value : Expr) :
    ofParts ("." ++ t.text) [equals, object, value] = .set object t.unplaced value := by
  rw [ofParts.eq_def, String.toList_append]
  change Expr.set object (.ofName (String.ofList t.text.toList)) value = _
  rw [String.ofList_toList, h.unplaced]

end Expr

mutual

theorem Expr.ofSexp_sexp {e : Expr} (h : e.Legible) : Expr.ofSexp e.sexp = e.unplaced := by
  match e with
  | .hole => exact h.elim
  | .literal token value =>
    rw [Expr.unplaced, h.2]
    exact Expr.ofWord_literal h.1
  | .variable name hops =>
    rw [Expr.unplaced, h.2]
    exact Expr.ofWord_name h.1
  | .assign name value hops =>
    rw [Expr.sexp, Expr.unplaced, h.2.2, Expr.ofSexp, Expr.ofSexps, Expr.ofSexps, Expr.ofSexps,
      Expr.ofSexp_sexp h.2.1, Expr.ofSexp, Expr.ofWord_name h.1]
    rfl
  | .unary operator right =>
    rw [Expr.sexp, Expr.unplaced, Expr.ofSexp, Expr.ofSexps, Expr.ofSexps, Expr.ofSexp_sexp h.2,
      Expr.ofParts_unary h.1]
  | .binary left operator right =>
    rw [Expr.sexp, Expr.unplaced, Expr.ofSexp, Expr.ofSexps, Expr.ofSexps, Expr.ofSexps,
      Expr.ofSexp_sexp h.2.1, Expr.ofSexp_sexp h.2.2, Expr.ofParts_binary h.1]
  | .logical left operator right =>
    rw [Expr.sexp, Expr.unplaced, Expr.ofSexp, Expr.ofSexps, Expr.ofSexps, Expr.ofSexps,
      Expr.ofSexp_sexp h.2.1, Expr.ofSexp_sexp h.2.2, Expr.ofParts_logical h.1]
  | .count operator target name hops =>
    obtain ⟨ho, hname, rfl, rfl⟩ := h
    rw [Expr.sexp, Expr.unplaced, Expr.ofSexp, Expr.ofSexps, Expr.ofSexps, Expr.sexp,
      Expr.ofSexp, Expr.ofWord_name hname, Expr.ofParts_count ho, Expr.unplaced]
  | .call callee paren args =>
    rw [Expr.sexp, Expr.unplaced, h.2.1, Expr.ofSexp, Expr.ofSexps, Expr.ofSexp_sexp h.1,
      Expr.ofSexps_sexps h.2.2]
    rfl
  | .group token inner =>
    rw [Expr.sexp, Expr.unplaced, h.1, Expr.ofSexp, Expr.ofSexps, Expr.ofSexps,
      Expr.ofSexp_sexp h.2]
    rfl
  | .self keyword hops =>
    have htext : keyword.text = "self" := congrArg Token.text h.1
    rw [Expr.sexp, Expr.unplaced, h.1, h.2, htext]
    rfl
  | .get object name =>
    rw [Expr.sexp, Expr.unplaced, Expr.ofSexp, Expr.ofSexps, Expr.ofSexps, Expr.ofSexp_sexp h.1,
      Expr.ofParts_get h.2]
  | .set object name value =>
    rw [Expr.sexp, Expr.unplaced, Expr.ofSexp, Expr.ofSexps, Expr.ofSexps, Expr.ofSexps,
      Expr.ofSexps, Expr.ofSexp_sexp h.1, Expr.ofSexp_sexp h.2.2, Expr.ofParts_set h.2.1]
  | .parent name => exact Expr.ofWord_parent h
  | .global name => exact Expr.ofWord_global h

theorem Expr.ofSexps_sexps {es : List Expr} (h : Expr.LegibleList es) :
    Expr.ofSexps (Expr.sexps es) = Expr.unplacedList es := by
  match es with
  | [] => rfl
  | e :: es =>
    rw [Expr.sexps, Expr.ofSexps, Expr.ofSexp_sexp h.1, Expr.ofSexps_sexps h.2, Expr.unplacedList]

end

/-! ## Statements -/

/-- The names that are printed as words. -/
def Token.ofSexps (items : List Sexp) : List Token :=
  items.map fun
    | .word text => .ofName text
    | .list _ => .blank

def Definition.ofItems (name : String) (initial : List Sexp) : Definition :=
  ⟨.ofKeyword .define, .ofName name, initial.head?.map Expr.ofSexp⟩

def Definition.ofSexp : Sexp → Definition
  | .list (.word "def" :: .word name :: initial) => .ofItems name initial
  | _ => ⟨.blank, .blank, none⟩

mutual

def Stmt.ofSexp : Sexp → Stmt
  | .list [.word ";", value] =>
    .expression (.ofName (Expr.ofSexp value).token.text) (Expr.ofSexp value)
  | .list [.word "log", value] => .print (.ofKeyword .log) (Expr.ofSexp value)
  | .list (.word "def" :: .word name :: initial) => .define (.ofItems name initial)
  | .list (.word "body" :: body) => .block ⟨.mark .bodyStart, "|", 0, .null⟩ (Stmt.ofSexps body)
  | .list (.word "op" :: .word name :: .list params :: body) =>
    .operation ⟨.ofKeyword .operation, .ofName name, Token.ofSexps params, Stmt.ofSexps body⟩
  | .list (.word "when" :: condition :: branch :: rest) =>
    .conditional (.ofKeyword .when) (Expr.ofSexp condition) (Stmt.ofSexp branch)
      (Arm.ofSexps rest).1 (Arm.ofSexps rest).2
  | .list [.word "while", condition, body] =>
    .loop (.ofKeyword .while) (Expr.ofSexp condition) (Stmt.ofSexp body)
  | .list (.word "return" :: value) =>
    .return (.ofKeyword .return) (value.head?.map Expr.ofSexp)
  | .list (.word "obj" :: .word name :: methods) =>
    .object (.ofKeyword .object) (.ofName name) (Operation.ofSexps methods)
  | .list (.word "enum" :: .word name :: elements) =>
    .enum (.ofKeyword .enum) (.ofName name) (Token.ofSexps elements)
  | .list (.word "form" :: .word name :: members) =>
    .form (.ofKeyword .form) (.ofName name) (members.map Definition.ofSexp)
  | _ => .hole

def Stmt.ofSexps : List Sexp → List Stmt
  | [] => []
  | s :: ss => Stmt.ofSexp s :: Stmt.ofSexps ss

def Operation.ofSexps : List Sexp → List Operation
  | .list (.word "op" :: .word name :: .list params :: body) :: rest =>
    ⟨.ofKeyword .operation, .ofName name, Token.ofSexps params, Stmt.ofSexps body⟩ ::
      Operation.ofSexps rest
  | _ => []

/-- Arms, and the statement behind them if there is one. -/
def Arm.ofSexps : List Sexp → List Arm × Option Stmt
  | [] => ([], none)
  | .list [.word "or", condition, branch] :: rest =>
    (⟨.ofKeyword .or, Expr.ofSexp condition, Stmt.ofSexp branch⟩ :: (Arm.ofSexps rest).1,
      (Arm.ofSexps rest).2)
  | s :: _ => ([], some (Stmt.ofSexp s))

end

theorem Expr.token_unplaced (e : Expr) : e.unplaced.token = e.token.unplaced := by
  cases e <;> rfl

theorem Token.ofSexps_sexps {names : List Token} (h : ∀ t ∈ names, t.Legible) :
    Token.ofSexps (Token.sexps names) = names.map Token.unplaced := by
  rw [Token.ofSexps, Token.sexps, List.map_map]
  exact List.map_congr_left fun t ht => (h t ht).unplaced.symm

theorem Expr.head?_map_ofSexp {e? : Option Expr} (h : Expr.LegibleOptional e?) :
    (e?.toList.map Expr.sexp).head?.map Expr.ofSexp = e?.map Expr.unplaced := by
  cases e? with
  | none => rfl
  | some e => exact congrArg some (Expr.ofSexp_sexp (h e rfl))

theorem Definition.ofItems_sexp {d : Definition} (h : d.Legible) :
    Definition.ofItems d.name.text (d.initial.toList.map Expr.sexp) = d.unplaced := by
  rw [Definition.ofItems, Definition.unplaced, h.token, h.name.unplaced,
    Expr.head?_map_ofSexp h.initial]

theorem Definition.map_ofSexp_sexp {ds : List Definition} (h : ∀ d ∈ ds, d.Legible) :
    (ds.map Definition.sexp).map Definition.ofSexp = ds.map Definition.unplaced := by
  rw [List.map_map]
  exact List.map_congr_left fun d hd => Definition.ofItems_sexp (h d hd)

/-- No statement is printed like an arm. -/
theorem Stmt.sexp_ne_arm {s : Stmt} (h : s.Legible) (condition branch : Sexp) :
    s.sexp ≠ .list [.word "or", condition, branch] := by
  cases s with
  | hole | arm a => exact h.elim
  | define d => simp [Stmt.sexp, Definition.sexp]
  | operation o =>
    cases o
    simp [Stmt.sexp, Operation.sexp]
  | conditional token condition branch arms otherwise => cases otherwise <;> simp [Stmt.sexp]
  | _ => simp [Stmt.sexp]

mutual

theorem Stmt.ofSexp_sexp {s : Stmt} (h : s.Legible) : Stmt.ofSexp s.sexp = s.unplaced := by
  match s with
  | .hole | .arm _ => exact h.elim
  | .expression token value =>
    rw [Stmt.sexp, Stmt.ofSexp, Expr.ofSexp_sexp h.2, Stmt.unplaced, h.1, Expr.token_unplaced]
    rfl
  | .print token value =>
    rw [Stmt.sexp, Stmt.ofSexp, Expr.ofSexp_sexp h.2, Stmt.unplaced, h.1]
  | .define d =>
    rw [Stmt.unplaced, ← Definition.ofItems_sexp h]
    rfl
  | .block token body =>
    rw [Stmt.sexp, Stmt.ofSexp, Stmt.ofSexps_sexps h.2, Stmt.unplaced, h.1]
  | .operation ⟨token, name, params, body⟩ =>
    obtain ⟨htoken, hname, hparams, hbody⟩ := h
    rw [Stmt.sexp, Operation.sexp, Stmt.ofSexp, Token.ofSexps_sexps hparams,
      Stmt.ofSexps_sexps hbody, Stmt.unplaced, Operation.unplaced, htoken, hname.unplaced]
  | .conditional token condition branch arms otherwise =>
    obtain ⟨htoken, hcondition, hbranch, harms, hotherwise⟩ := h
    cases otherwise with
    | none =>
      have hrest := Arm.ofSexps_sexps harms [] none rfl
      rw [Stmt.sexp, Stmt.ofSexp, hrest, Expr.ofSexp_sexp hcondition, Stmt.ofSexp_sexp hbranch,
        Stmt.unplaced, htoken]
    | some s =>
      have hlast : Arm.ofSexps [s.sexp] = ([], some s.unplaced) := by
        rw [Arm.ofSexps, Stmt.ofSexp_sexp hotherwise]
        exact Stmt.sexp_ne_arm hotherwise
      have hrest := Arm.ofSexps_sexps harms [s.sexp] (some s.unplaced) hlast
      rw [Stmt.sexp, Stmt.ofSexp, hrest, Expr.ofSexp_sexp hcondition, Stmt.ofSexp_sexp hbranch,
        Stmt.unplaced, htoken]
  | .loop token condition body =>
    rw [Stmt.sexp, Stmt.ofSexp, Expr.ofSexp_sexp h.2.1, Stmt.ofSexp_sexp h.2.2, Stmt.unplaced, h.1]
  | .return token value =>
    rw [Stmt.sexp, Stmt.ofSexp, Expr.head?_map_ofSexp h.2, Stmt.unplaced, h.1]
  | .object token name methods =>
    rw [Stmt.sexp, Stmt.ofSexp, Operation.ofSexps_sexps h.2.2, Stmt.unplaced, h.1, h.2.1.unplaced]
  | .enum token name elements =>
    rw [Stmt.sexp, Stmt.ofSexp, Token.ofSexps_sexps h.2.2, Stmt.unplaced, h.1, h.2.1.unplaced]
  | .form token name members =>
    rw [Stmt.sexp, Stmt.ofSexp, Definition.map_ofSexp_sexp h.2.2, Stmt.unplaced, h.1,
      h.2.1.unplaced]

theorem Stmt.ofSexps_sexps {ss : List Stmt} (h : Stmt.LegibleList ss) :
    Stmt.ofSexps (Stmt.sexps ss) = Stmt.unplacedList ss := by
  match ss with
  | [] => rfl
  | s :: ss =>
    rw [Stmt.sexps, Stmt.ofSexps, Stmt.ofSexp_sexp h.1, Stmt.ofSexps_sexps h.2, Stmt.unplacedList]

theorem Operation.ofSexps_sexps {os : List Operation} (h : Operation.LegibleList os) :
    Operation.ofSexps (Operation.sexps os) = Operation.unplacedList os := by
  match os with
  | [] => rfl
  | ⟨token, name, params, body⟩ :: os =>
    obtain ⟨⟨htoken, hname, hparams, hbody⟩, hos⟩ := h
    rw [Operation.sexps, Operation.sexp, Operation.ofSexps, Token.ofSexps_sexps hparams,
      Stmt.ofSexps_sexps hbody, Operation.ofSexps_sexps hos, Operation.unplacedList,
      Operation.unplaced, htoken, hname.unplaced]

/-- The arms are those before the first item that is not one. -/
theorem Arm.ofSexps_sexps {arms : List Arm} (h : Arm.LegibleList arms) (last : List Sexp)
    (otherwise : Option Stmt) (hlast : Arm.ofSexps last = ([], otherwise)) :
    Arm.ofSexps (Arm.sexps arms ++ last) = (Arm.unplacedList arms, otherwise) := by
  match arms with
  | [] => exact hlast
  | ⟨token, condition, branch⟩ :: rest =>
    obtain ⟨⟨htoken, hcondition, hbranch⟩, hrest⟩ := h
    rw [Arm.sexps, Arm.sexp, List.cons_append, Arm.ofSexps,
      Arm.ofSexps_sexps hrest last otherwise hlast, Expr.ofSexp_sexp hcondition,
      Stmt.ofSexp_sexp hbranch, Arm.unplacedList, Arm.unplaced, htoken]

end

/-- The program that a text is the printed form of. -/
def Program.reread (text : String) : Option Program := (Sexp.read text).map Stmt.ofSexps

/-- A legible program can be read back from its printed form. -/
theorem Program.reread_print {p : Program} (h : p.Legible) : reread p.print = some p.unplaced := by
  rw [reread, (Program.reads h).read_eq]
  exact congrArg some (Stmt.ofSexps_sexps h)

/-- The printed form determines the program. Two programs that have been read from documents, and
whose names and literals are plain, are the same up to the rows of their tokens if they are printed
alike. -/
theorem Program.print_determines {p q : Program} (hp : p.Decoded) (hq : q.Decoded)
    (hpplain : ∀ n ∈ p.nodes, n.Plain) (hqplain : ∀ n ∈ q.nodes, n.Plain)
    (h : p.print = q.print) : p.unplaced = q.unplaced := by
  obtain ⟨ds, hds⟩ := hp
  obtain ⟨ds', hds'⟩ := hq
  have hreread := reread_print (Document.program_legible hds hpplain)
  rw [h, reread_print (Document.program_legible hds' hqplain)] at hreread
  exact (Option.some.inj hreread).symm

/-- A subtraction with a text that has to be quoted, on a given line. -/
def subtractionDocument (line : Int64) : List Document :=
  [.mapping [("type", .text "Print"), ("line", .int line), ("expression", .mapping [
    ("type", .text "Binary"), ("operator", .text "-"),
    ("left", .mapping [("type", .text "Variable"), ("name", .text "x1")]),
    ("right", .mapping [("type", .text "Literal"), ("value", .text ") \"")])])]]

def subtraction (row : Int) : Program :=
  [.print ⟨.keyword .log, "log", row, .null⟩ (.binary (.variable ⟨.identifier, "x1", row, .null⟩ none)
    ⟨.operator .minus, "-", row, .null⟩ (.literal ⟨.text, ") \"", row, .text ") \""⟩ (.text ") \"")))]

theorem subtraction_plain (row : Int) : ∀ n ∈ (subtraction row).nodes, n.Plain := by
  have hname : Text.IsName "x1" :=
    ⟨⟨'x', ['1'], rfl, by decide, List.forall_mem_singleton.2 (by decide)⟩, by decide⟩
  change ∀ n ∈ [Node.stmt _, .expr _, .expr _, .expr _], n.Plain
  simp only [List.forall_mem_cons]
  exact ⟨⟨List.forall_mem_nil _, id⟩, ⟨List.forall_mem_nil _, id⟩,
    ⟨List.forall_mem_singleton.2 hname, id⟩, ⟨List.forall_mem_nil _, id⟩, List.forall_mem_nil _⟩

theorem Program.print_determines_subtraction :
    (subtraction 1).Decoded ∧ (subtraction 7).Decoded ∧
      (subtraction 1).print = (subtraction 7).print ∧
        (subtraction 1).unplaced = (subtraction 7).unplaced := by
  have hfirst : (subtraction 1).Decoded := ⟨subtractionDocument 1, by with_unfolding_all rfl⟩
  have hlast : (subtraction 7).Decoded := ⟨subtractionDocument 7, by with_unfolding_all rfl⟩
  have hprint : (subtraction 1).print = (subtraction 7).print := rfl
  exact ⟨hfirst, hlast, hprint,
    Program.print_determines hfirst hlast (subtraction_plain 1) (subtraction_plain 7) hprint⟩

end Treescript
