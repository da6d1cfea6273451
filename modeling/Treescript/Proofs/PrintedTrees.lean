import Treescript.Proofs.LegibleTrees
import Treescript.Proofs.PrintedText

/-!
# Printed trees as lists of words

What the printed form of a legible tree reads as. Heads of several words come apart: `(= x 1)` is a
list of three words, and `(op f(a, b))` has the list of the parameters as its third item.
-/

namespace Treescript

mutual

/-- What the printed form of an expression reads as. -/
def Expr.sexp : Expr → Sexp
  | .hole => .word "none"
  | .literal _ value => .word value.printed
  | .variable name _ => .word name.text
  | .assign name value _ => .list [.word "=", .word name.text, value.sexp]
  | .unary operator right => .list [.word operator.text, right.sexp]
  | .binary left operator right => .list [.word operator.text, left.sexp, right.sexp]
  | .logical left operator right => .list [.word operator.text, left.sexp, right.sexp]
  | .count operator target _ _ => .list [.word operator.text, target.sexp]
  | .call callee _ args => .list (.word "call" :: callee.sexp :: Expr.sexps args)
  | .group _ inner => .list [.word "group", inner.sexp]
  | .self keyword _ => .word keyword.text
  | .get object name => .list [.word ("." ++ name.text), object.sexp]
  | .set object name value =>
    .list [.word ("." ++ name.text), .word "=", object.sexp, value.sexp]
  | .parent name => .word ("^" ++ name.text)
  | .global name => .word ("$" ++ name.text)

def Expr.sexps : List Expr → List Sexp
  | [] => []
  | e :: es => e.sexp :: Expr.sexps es

end

def Token.sexps (names : List Token) : List Sexp := names.map fun t => .word t.text

def Definition.sexp (d : Definition) : Sexp :=
  .list (.word "def" :: .word d.name.text :: d.initial.toList.map Expr.sexp)

mutual

def Stmt.sexp : Stmt → Sexp
  | .hole => .word "none"
  | .expression _ value => .list [.word ";", value.sexp]
  | .print _ value => .list [.word "log", value.sexp]
  | .define d => d.sexp
  | .block _ body => .list (.word "body" :: Stmt.sexps body)
  | .operation o => o.sexp
  | .conditional _ condition branch arms otherwise =>
    .list (.word "when" :: condition.sexp :: branch.sexp :: (Arm.sexps arms ++
      match otherwise with
      | none => []
      | some s => [s.sexp]))
  | .arm a => a.sexp
  | .loop _ condition body => .list [.word "while", condition.sexp, body.sexp]
  | .return _ value => .list (.word "return" :: value.toList.map Expr.sexp)
  | .object _ name methods =>
    .list (.word "obj" :: .word name.text :: Operation.sexps methods)
  | .enum _ name elements => .list (.word "enum" :: .word name.text :: Token.sexps elements)
  | .form _ name members =>
    .list (.word "form" :: .word name.text :: members.map Definition.sexp)

def Stmt.sexps : List Stmt → List Sexp
  | [] => []
  | s :: ss => s.sexp :: Stmt.sexps ss

def Operation.sexp : Operation → Sexp
  | ⟨_, name, params, body⟩ =>
    .list (.word "op" :: .word name.text :: .list (Token.sexps params) :: Stmt.sexps body)

def Operation.sexps : List Operation → List Sexp
  | [] => []
  | o :: os => o.sexp :: Operation.sexps os

def Arm.sexp : Arm → Sexp
  | ⟨_, condition, branch⟩ => .list [.word "or", condition.sexp, branch.sexp]

def Arm.sexps : List Arm → List Sexp
  | [] => []
  | a :: rest => a.sexp :: Arm.sexps rest

end

/-- Neither a delimiter nor a quote. -/
def Lexeme.isOrdinary (c : Char) : Bool := !isDelimiter c && c != '"'

theorem Lexeme.isOrdinary_of_isAlphanum {c : Char} (h : c.isAlphanum) : isOrdinary c := by
  simp only [isOrdinary, isDelimiter, Bool.and_eq_true, Bool.not_eq_true', Bool.or_eq_false_iff,
    beq_eq_false_iff_ne, bne_iff_ne]
  refine ⟨⟨⟨⟨⟨?_, ?_⟩, ?_⟩, ?_⟩, ?_⟩, ?_⟩
  all_goals
    rintro rfl
    cases h

/-- A text that is one word. -/
structure Text.Ordinary (t : String) : Prop where
  ne_empty : t ≠ ""
  chars : t.toList.all Lexeme.isOrdinary

namespace Text.Ordinary

theorem of_name {t : Token} (h : t.Legible) : Text.Ordinary t.text := by
  obtain ⟨c, cs, hlist, hc, hcs⟩ := h.name.letters
  refine ⟨?_, ?_⟩
  · intro heq
    rw [heq] at hlist
    cases hlist
  · have hc : c.isAlphanum := by simp [Char.isAlphanum, hc]
    rw [hlist, List.all_cons, Bool.and_eq_true, List.all_eq_true]
    exact ⟨Lexeme.isOrdinary_of_isAlphanum hc, fun d hd => Lexeme.isOrdinary_of_isAlphanum (hcs d hd)⟩

theorem append {t u : String} (h : Text.Ordinary t) (h' : Text.Ordinary u) :
    Text.Ordinary (t ++ u) := by
  refine ⟨fun heq => h.ne_empty (String.append_eq_empty_iff.1 heq).1, ?_⟩
  rw [String.toList_append, List.all_append, h.chars, h'.chars]
  rfl

theorem repr (n : Nat) : Text.Ordinary n.repr := by
  refine ⟨Nat.repr_ne_empty, List.all_eq_true.2 fun c hc => ?_⟩
  rw [Nat.toList_repr] at hc
  have hdigit := Nat.isDigit_of_mem_toDigits (by decide) (by decide) hc
  exact Lexeme.isOrdinary_of_isAlphanum (by simp [Char.isAlphanum, hdigit])

theorem toString (i : Int) : Text.Ordinary (ToString.toString i) := by
  cases i with
  | ofNat n => exact repr n
  | negSucc n => exact append ⟨by decide, by decide⟩ (repr (n + 1))

theorem of_spells {table : String → Option Operator} {words : List String} {t : Token}
    (h : t.Spells table) (htable : ∀ word o, table word = some o → word ∈ words)
    (hwords : ∀ word ∈ words, word ≠ "" ∧ word.toList.all Lexeme.isOrdinary) :
    Text.Ordinary t.text := by
  obtain ⟨o, ho, -⟩ := h
  have hword := hwords t.text (htable t.text o ho)
  exact ⟨hword.1, hword.2⟩

end Text.Ordinary

theorem Operator.mem_of_unary? (word : String) (o : Operator) (h : unary? word = some o) :
    word ∈ ["!", "-"] := by
  unfold unary? at h
  split at h <;> simp at h ⊢

theorem Operator.mem_of_binary? (word : String) (o : Operator) (h : binary? word = some o) :
    word ∈ ["==", "!=", ">", ">=", "<", "<=", "*", "/", "+", "-"] := by
  unfold binary? at h
  split at h <;> simp at h ⊢

theorem Operator.mem_of_logical? (word : String) (o : Operator) (h : logical? word = some o) :
    word ∈ ["&&", "and", "||", "or"] := by
  unfold logical? at h
  split at h <;> simp at h ⊢

theorem Operator.mem_of_count? (word : String) (o : Operator) (h : count? word = some o) :
    word ∈ ["++", "--"] := by
  unfold count? at h
  split at h <;> simp at h ⊢

namespace Reads

open Lexeme

variable {t u : String} {items more : List Sexp}

theorem ordinary (h : Text.Ordinary t) : Reads t [.word t] := by
  refine word h.ne_empty fun c hc => ?_
  have hc := List.all_eq_true.1 h.chars c hc
  rw [Lexeme.isOrdinary] at hc
  simpa using hc

theorem name {t : Token} (h : t.Legible) : Reads t.text [.word t.text] := ordinary (.of_name h)

/-- A word with more behind it. -/
theorem headed (h : Text.Ordinary t) (h' : Reads u items) :
    Reads (t ++ " " ++ u) (.word t :: items) := by
  rw [String.append_assoc]
  exact (ordinary h).append (Separates.space.delimited_append u) (h'.separated .space)

theorem parts_nil : Reads (Outline.renderParts []) [] := empty

theorem delimited_parts (parts : List Outline) : Delimited (Outline.renderParts parts).toList := by
  cases parts with
  | nil => exact nofun
  | cons part parts =>
    rw [Outline.renderParts, String.append_assoc]
    exact Separates.space.delimited_append _

theorem parts_cons {part : Outline} {parts : List Outline} {s : Sexp} (h : Reads part.render [s])
    (h' : Reads (Outline.renderParts parts) items) :
    Reads (Outline.renderParts (part :: parts)) (s :: items) := by
  rw [Outline.renderParts]
  exact (h.separated .space).append (delimited_parts parts) h'

theorem parts_append {parts parts' : List Outline} (h : Reads (Outline.renderParts parts) items)
    (h' : Reads (Outline.renderParts parts') more) :
    Reads (Outline.renderParts (parts ++ parts')) (items ++ more) := by
  have hrender : Outline.renderParts (parts ++ parts') =
      Outline.renderParts parts ++ Outline.renderParts parts' := by
    clear h h'
    induction parts with
    | nil => simp [Outline.renderParts]
    | cons part parts ih =>
      simp only [List.cons_append, Outline.renderParts, ih, String.append_assoc]
  rw [hrender]
  exact h.append (delimited_parts parts') h'

/-- A group is a list of the items of its head and those of its parts. -/
theorem group {head : String} {parts : List Outline} (h : Reads head items)
    (h' : Reads (Outline.renderParts parts) more) :
    Reads (Outline.group head parts).render [.list (items ++ more)] := by
  have hlist := (h.append (delimited_parts parts) h').parenthesized
  rwa [← String.append_assoc] at hlist

theorem group_one {head : String} {part : Outline} {s : Sexp} (h : Reads head items)
    (h' : Reads part.render [s]) : Reads (Outline.group head [part]).render [.list (items ++ [s])] :=
  h.group (h'.parts_cons parts_nil)

theorem group_two {head : String} {part part' : Outline} {s s' : Sexp} (h : Reads head items)
    (h₁ : Reads part.render [s]) (h₂ : Reads part'.render [s']) :
    Reads (Outline.group head [part, part']).render [.list (items ++ [s, s'])] :=
  h.group (h₁.parts_cons (h₂.parts_cons parts_nil))

/-- Names with a separator between them. -/
theorem intercalate {sep : String} (hsep : Separates sep) {names : List Token}
    (h : ∀ t ∈ names, t.Legible) :
    Reads (sep.intercalate (names.map (·.text))) (Token.sexps names) := by
  induction names with
  | nil => exact empty
  | cons t names ih =>
    obtain ⟨ht, hnames⟩ := List.forall_mem_cons.1 h
    cases names with
    | nil => simpa [Token.sexps] using name ht
    | cons t' names =>
      rw [List.map_cons, List.map_cons, String.intercalate_cons_cons, String.append_assoc]
      exact (name ht).append (hsep.delimited_append _) ((ih hnames).separated hsep)

end Reads

theorem Literal.reads {l : Literal} (h : l.Legible) : Reads l.printed [.word l.printed] := by
  cases l with
  | null => exact .ordinary ⟨by decide, by decide⟩
  | bool b => cases b <;> exact .ordinary ⟨by decide, by decide⟩
  | int n => exact .ordinary (.toString n.toInt)
  | text s => exact .quote s
  | float x | word n | natural n => exact h.elim

mutual

theorem Expr.reads {e : Expr} (h : e.Legible) : Reads e.outline.render [e.sexp] := by
  match e with
  | .hole => exact h.elim
  | .literal token value => exact Literal.reads h.1
  | .variable name hops => exact .name h.1
  | .assign name value hops =>
    have hhead : Reads ("=" ++ " " ++ name.text) [.word "=", .word name.text] :=
      .headed ⟨by decide, by decide⟩ (.name h.1)
    exact hhead.group_one (Expr.reads h.2.1)
  | .unary operator right =>
    have hhead := Text.Ordinary.of_spells h.1 Operator.mem_of_unary? (by decide)
    exact (Reads.ordinary hhead).group_one (Expr.reads h.2)
  | .binary left operator right =>
    have hhead := Text.Ordinary.of_spells h.1 Operator.mem_of_binary? (by decide)
    exact (Reads.ordinary hhead).group_two (Expr.reads h.2.1) (Expr.reads h.2.2)
  | .logical left operator right =>
    have hhead := Text.Ordinary.of_spells h.1 Operator.mem_of_logical? (by decide)
    exact (Reads.ordinary hhead).group_two (Expr.reads h.2.1) (Expr.reads h.2.2)
  | .count operator target name hops =>
    obtain ⟨ho, hname, rfl, -⟩ := h
    have hhead := Text.Ordinary.of_spells ho Operator.mem_of_count? (by decide)
    exact (Reads.ordinary hhead).group_one (.name hname)
  | .call callee paren args =>
    have hhead : Reads "call" [.word "call"] := .ordinary ⟨by decide, by decide⟩
    exact hhead.group ((Expr.reads h.1).parts_cons (Expr.readsList h.2.2))
  | .group token inner =>
    have hhead : Reads "group" [.word "group"] := .ordinary ⟨by decide, by decide⟩
    exact hhead.group_one (Expr.reads h.2)
  | .self keyword hops =>
    have htext : keyword.text = "self" := congrArg Token.text h.1
    have hword : Text.Ordinary keyword.text := htext ▸ ⟨by decide, by decide⟩
    exact .ordinary hword
  | .get object name =>
    have hhead : Text.Ordinary ("." ++ name.text) := .append ⟨by decide, by decide⟩ (.of_name h.2)
    exact (Reads.ordinary hhead).group_one (Expr.reads h.1)
  | .set object name value =>
    have hhead : Text.Ordinary ("." ++ name.text) :=
      .append ⟨by decide, by decide⟩ (.of_name h.2.1)
    have hassign : Reads ("." ++ name.text ++ " =") [.word ("." ++ name.text), .word "="] := by
      have hequals : " =" = " " ++ "=" := by decide
      rw [hequals, ← String.append_assoc]
      exact .headed hhead (.ordinary ⟨by decide, by decide⟩)
    exact hassign.group_two (Expr.reads h.1) (Expr.reads h.2.2)
  | .parent name => exact .ordinary (.append ⟨by decide, by decide⟩ (.of_name h))
  | .global name => exact .ordinary (.append ⟨by decide, by decide⟩ (.of_name h))

theorem Expr.readsList {es : List Expr} (h : Expr.LegibleList es) :
    Reads (Outline.renderParts (Expr.outlines es)) (Expr.sexps es) := by
  match es with
  | [] => exact .parts_nil
  | e :: es => exact (Expr.reads h.1).parts_cons (Expr.readsList h.2)

end

theorem Expr.readsOptional {e? : Option Expr} (h : Expr.LegibleOptional e?) :
    Reads (Outline.renderParts (e?.toList.map Expr.outline)) (e?.toList.map Expr.sexp) := by
  cases e? with
  | none => exact .parts_nil
  | some e => exact (Expr.reads (h e rfl)).parts_cons .parts_nil

theorem Definition.reads {d : Definition} (h : d.Legible) : Reads d.outline.render [d.sexp] := by
  have hhead : Reads ("def" ++ " " ++ d.name.text) [.word "def", .word d.name.text] :=
    .headed ⟨by decide, by decide⟩ (.name h.name)
  exact hhead.group (Expr.readsOptional h.initial)

theorem Definition.readsList {ds : List Definition} (h : ∀ d ∈ ds, d.Legible) :
    Reads (Outline.renderParts (ds.map Definition.outline)) (ds.map Definition.sexp) := by
  induction ds with
  | nil => exact .parts_nil
  | cons d ds ih =>
    obtain ⟨hd, hds⟩ := List.forall_mem_cons.1 h
    exact (Definition.reads hd).parts_cons (ih hds)

theorem Operation.reads_heading {name : Token} {params : List Token} (hname : name.Legible)
    (hparams : ∀ t ∈ params, t.Legible) :
    Reads (Operation.heading name params)
      [.word "op", .word name.text, .list (Token.sexps params)] := by
  have hlist := (Reads.intercalate .comma hparams).parenthesized
  have hdelimited : Lexeme.Delimited
      ("(" ++ ", ".intercalate (params.map (·.text)) ++ ")").toList := by
    rw [String.append_assoc, String.toList_append]
    rintro c ⟨⟩
    rfl
  have hhead := Reads.headed (t := "op") ⟨by decide, by decide⟩
    ((Reads.name hname).append hdelimited hlist)
  simp only [← String.append_assoc] at hhead
  exact hhead

mutual

theorem Stmt.reads {s : Stmt} (h : s.Legible) : Reads s.outline.render [s.sexp] := by
  match s with
  | .hole | .arm _ => exact h.elim
  | .expression token value =>
    have hhead : Reads ";" [.word ";"] := .ordinary ⟨by decide, by decide⟩
    exact hhead.group_one (Expr.reads h.2)
  | .print token value =>
    have hhead : Reads "log" [.word "log"] := .ordinary ⟨by decide, by decide⟩
    exact hhead.group_one (Expr.reads h.2)
  | .define d => exact Definition.reads h
  | .block token body =>
    have hhead : Reads "body" [.word "body"] := .ordinary ⟨by decide, by decide⟩
    exact hhead.group (Stmt.readsList h.2)
  | .operation o => exact Operation.reads h
  | .conditional token condition branch arms otherwise =>
    obtain ⟨-, hcondition, hbranch, harms, hotherwise⟩ := h
    have hhead : Reads "when" [.word "when"] := .ordinary ⟨by decide, by decide⟩
    have hparts {last : List Outline} {items : List Sexp}
        (hlast : Reads (Outline.renderParts last) items) :=
      hhead.group ((Expr.reads hcondition).parts_cons ((Stmt.reads hbranch).parts_cons
        ((Arm.readsList harms).parts_append hlast)))
    cases otherwise with
    | none => exact hparts .parts_nil
    | some s => exact hparts ((Stmt.reads hotherwise).parts_cons .parts_nil)
  | .loop token condition body =>
    have hhead : Reads "while" [.word "while"] := .ordinary ⟨by decide, by decide⟩
    exact hhead.group_two (Expr.reads h.2.1) (Stmt.reads h.2.2)
  | .return token value =>
    have hhead : Reads "return" [.word "return"] := .ordinary ⟨by decide, by decide⟩
    exact hhead.group (Expr.readsOptional h.2)
  | .object token name methods =>
    have hhead : Reads ("obj" ++ " " ++ name.text) [.word "obj", .word name.text] :=
      .headed ⟨by decide, by decide⟩ (.name h.2.1)
    exact hhead.group (Operation.readsList h.2.2)
  | .enum token name elements =>
    have helements := (Reads.intercalate .space h.2.2).headed (.of_name h.2.1)
    have hhead := Reads.headed (t := "enum") ⟨by decide, by decide⟩ helements
    simp only [← String.append_assoc] at hhead
    have hgroup := hhead.group .parts_nil
    rw [List.append_nil] at hgroup
    exact hgroup
  | .form token name members =>
    have hhead : Reads ("form" ++ " " ++ name.text) [.word "form", .word name.text] :=
      .headed ⟨by decide, by decide⟩ (.name h.2.1)
    exact hhead.group (Definition.readsList h.2.2)

theorem Stmt.readsList {ss : List Stmt} (h : Stmt.LegibleList ss) :
    Reads (Outline.renderParts (Stmt.outlines ss)) (Stmt.sexps ss) := by
  match ss with
  | [] => exact .parts_nil
  | s :: ss => exact (Stmt.reads h.1).parts_cons (Stmt.readsList h.2)

theorem Operation.reads {o : Operation} (h : o.Legible) : Reads o.outline.render [o.sexp] := by
  match o with
  | ⟨_, name, params, body⟩ =>
    exact (Operation.reads_heading h.2.1 h.2.2.1).group (Stmt.readsList h.2.2.2)

theorem Operation.readsList {os : List Operation} (h : Operation.LegibleList os) :
    Reads (Outline.renderParts (Operation.outlines os)) (Operation.sexps os) := by
  match os with
  | [] => exact .parts_nil
  | o :: os => exact (Operation.reads h.1).parts_cons (Operation.readsList h.2)

theorem Arm.readsList {arms : List Arm} (h : Arm.LegibleList arms) :
    Reads (Outline.renderParts (Arm.outlines arms)) (Arm.sexps arms) := by
  match arms with
  | [] => exact .parts_nil
  | ⟨_, condition, branch⟩ :: rest =>
    have hhead : Reads "or" [.word "or"] := .ordinary ⟨by decide, by decide⟩
    have harm := hhead.group_two (Expr.reads h.1.2.1) (Stmt.reads h.1.2.2)
    exact harm.parts_cons (Arm.readsList h.2)

end

/-- The printed form of a legible program reads as the list of its statements. -/
theorem Program.reads {p : Program} (h : p.Legible) : Reads p.print (Stmt.sexps p) := by
  induction p with
  | nil => exact .empty
  | cons s rest ih =>
    rw [Program.print, List.map_cons, String.join_cons, String.append_assoc]
    exact (Stmt.reads h.1).append (Lexeme.Separates.newline.delimited_append _)
      ((ih h.2).separated .newline)

end Treescript
