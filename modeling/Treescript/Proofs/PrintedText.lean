import Treescript.Proofs.QuotedText
import Treescript.Tree.Printer

/-!
# Reading printed text

The text of a printed tree, read as nested lists of words. Parentheses open and close lists, blanks
and commas only separate, and a quoted text counts as one word, whatever it has between its quotes.
`Reads` says what a piece of text reads as, and has a rule for each way that pieces are put together.
-/

namespace Treescript

/-- A word, or a list in parentheses. -/
inductive Sexp where
  | word (text : String)
  | list (items : List Sexp)

inductive Lexeme where
  | opening
  | closing
  | word (text : String)

namespace Lexeme

def isDelimiter (c : Char) : Bool := c == '(' || c == ')' || c == ' ' || c == ',' || c == '\n'

/-- What a delimiter is besides the end of a word. -/
def ofDelimiter : Char → List Lexeme
  | '(' => [opening]
  | ')' => [closing]
  | _ => []

/-- What is being read, with the characters of an unfinished word from the last to the first. -/
inductive Scan where
  | blank
  | word (read : List Char)
  | quoted (read : List Char)
  /-- Behind a backslash in a quoted text. -/
  | escaped (read : List Char)

/-- The word made of characters from the last to the first. -/
def ofReversed (read : List Char) : Lexeme := word (String.ofList read.reverse)

def scan : Scan → List Char → List Lexeme
  | .word read, [] => [ofReversed read]
  | _, [] => []
  | .blank, c :: cs =>
    if isDelimiter c then ofDelimiter c ++ scan .blank cs
    else if c = '"' then scan (.quoted [c]) cs
    else scan (.word [c]) cs
  | .word read, c :: cs =>
    if isDelimiter c then ofReversed read :: (ofDelimiter c ++ scan .blank cs)
    else scan (.word (c :: read)) cs
  | .quoted read, c :: cs =>
    if c = '"' then ofReversed (c :: read) :: scan .blank cs
    else if c = '\\' then scan (.escaped (c :: read)) cs
    else scan (.quoted (c :: read)) cs
  | .escaped read, c :: cs => scan (.quoted (c :: read)) cs

/-- A word can end before this text. -/
def Delimited (text : List Char) : Prop := ∀ c ∈ text.head?, isDelimiter c

theorem scan_word_of_delimited (read : List Char) {rest : List Char} (h : Delimited rest) :
    scan (.word read) rest = ofReversed read :: scan .blank rest := by
  cases rest with
  | nil => rfl
  | cons c cs =>
    have hc : isDelimiter c := h c rfl
    simp only [scan, hc, if_true]

theorem scan_word_append {word : List Char} (h : ∀ c ∈ word, ¬ isDelimiter c)
    (read rest : List Char) :
    scan (.word read) (word ++ rest) = scan (.word (word.reverse ++ read)) rest := by
  induction word generalizing read with
  | nil => rfl
  | cons c word ih =>
    obtain ⟨hc, hword⟩ := List.forall_mem_cons.1 h
    rw [List.cons_append, scan, if_neg hc, ih hword, List.reverse_cons, List.append_assoc]
    rfl

theorem scan_quoted_append {text : List Char} (h : ∀ c ∈ text, c ≠ '"' ∧ c ≠ '\\')
    (read rest : List Char) :
    scan (.quoted read) (text ++ rest) = scan (.quoted (text.reverse ++ read)) rest := by
  induction text generalizing read with
  | nil => rfl
  | cons c text ih =>
    obtain ⟨hc, htext⟩ := List.forall_mem_cons.1 h
    rw [List.cons_append, scan, if_neg hc.1, if_neg hc.2, ih htext, List.reverse_cons,
      List.append_assoc]
    rfl

/-- An escape does not end a quoted text. -/
theorem scan_quoted_escape (c : Char) (read rest : List Char) :
    scan (.quoted read) (Text.escape c ++ rest) =
      scan (.quoted ((Text.escape c).reverse ++ read)) rest := by
  have h := Text.escapes_escape c
  generalize Text.escape c = written at h
  cases h with
  | plain hquote hslash =>
    exact scan_quoted_append (List.forall_mem_singleton.2 ⟨hquote, hslash⟩) read rest
  | named d => rfl
  | @coded kind width =>
    have hdigits : ∀ d ∈ Text.hex (width + 1) c.toNat, d ≠ '"' ∧ d ≠ '\\' := by
      intro d hd
      have halpha := Text.isAlphanum_of_mem_hex d hd
      constructor
      · rintro rfl
        cases halpha
      · rintro rfl
        cases halpha
    have happend := scan_quoted_append hdigits (kind :: '\\' :: read) rest
    change scan (.quoted (kind :: '\\' :: read)) (Text.hex (width + 1) c.toNat ++ rest) = _
    rw [happend, List.reverse_cons, List.reverse_cons, List.append_assoc, List.append_assoc]
    rfl

theorem scan_quoted_flatMap (cs read rest : List Char) :
    scan (.quoted read) (cs.flatMap Text.escape ++ rest) =
      scan (.quoted ((cs.flatMap Text.escape).reverse ++ read)) rest := by
  induction cs generalizing read with
  | nil => rfl
  | cons c cs ih =>
    rw [List.flatMap_cons, List.append_assoc, scan_quoted_escape, ih, List.reverse_append,
      List.append_assoc]

/-- A text that only separates words. -/
structure Separates (sep : String) : Prop where
  delimited : ∀ rest, Delimited (sep.toList ++ rest)
  skipped : ∀ rest, scan .blank (sep.toList ++ rest) = scan .blank rest

namespace Separates

theorem delimited_append {sep : String} (h : Separates sep) (t : String) :
    Delimited (sep ++ t).toList := by
  rw [String.toList_append]
  exact h.delimited t.toList

theorem space : Separates " " := by
  refine ⟨fun rest => ?_, fun _ => rfl⟩
  rintro c ⟨⟩
  rfl

theorem comma : Separates ", " := by
  refine ⟨fun rest => ?_, fun _ => rfl⟩
  rintro c ⟨⟩
  rfl

theorem newline : Separates "\n" := by
  refine ⟨fun rest => ?_, fun _ => rfl⟩
  rintro c ⟨⟩
  rfl

end Separates

end Lexeme

namespace Sexp

mutual

def lexemes : Sexp → List Lexeme
  | .word text => [.word text]
  | .list items => .opening :: (lexemesOfList items ++ [.closing])

def lexemesOfList : List Sexp → List Lexeme
  | [] => []
  | s :: ss => s.lexemes ++ lexemesOfList ss

end

theorem lexemesOfList_append (ss ts : List Sexp) :
    lexemesOfList (ss ++ ts) = lexemesOfList ss ++ lexemesOfList ts := by
  induction ss with
  | nil => rfl
  | cons s ss ih => simp only [List.cons_append, lexemesOfList, ih, List.append_assoc]

/-- Puts lexemes together. There are lists that have been opened, the innermost first, each with the
items before the next one, and the items read last; all of these from the last to the first. -/
def build : List (List Sexp) → List Sexp → List Lexeme → Option (List Sexp)
  | [], items, [] => some items.reverse
  | _ :: _, _, [] => none
  | around, items, .opening :: rest => build (items :: around) [] rest
  | [], _, .closing :: _ => none
  | outer :: around, items, .closing :: rest => build around (.list items.reverse :: outer) rest
  | around, items, .word text :: rest => build around (.word text :: items) rest

mutual

theorem build_lexemes (s : Sexp) (around : List (List Sexp)) (items : List Sexp)
    (rest : List Lexeme) : build around items (s.lexemes ++ rest) = build around (s :: items) rest := by
  match s with
  | .word text => cases around <;> rfl
  | .list inner =>
    have hinner := build_lexemesOfList inner (items :: around) [] (.closing :: rest)
    rw [lexemes, List.cons_append, List.append_assoc]
    cases around <;> simp [build, hinner]

theorem build_lexemesOfList (ss : List Sexp) (around : List (List Sexp)) (items : List Sexp)
    (rest : List Lexeme) :
    build around items (lexemesOfList ss ++ rest) = build around (ss.reverse ++ items) rest := by
  match ss with
  | [] => rfl
  | s :: ss =>
    rw [lexemesOfList, List.append_assoc, build_lexemes s, build_lexemesOfList ss,
      List.reverse_cons, List.append_assoc]
    rfl

end

/-- The words and lists that a text is made of. -/
def read (text : String) : Option (List Sexp) := build [] [] (Lexeme.scan .blank text.toList)

end Sexp

/-- The text reads as the given items, whatever follows behind a delimiter. -/
def Reads (text : String) (items : List Sexp) : Prop :=
  ∀ rest, Lexeme.Delimited rest → Lexeme.scan .blank (text.toList ++ rest) =
    Sexp.lexemesOfList items ++ Lexeme.scan .blank rest

namespace Reads

open Lexeme

variable {t u : String} {items more : List Sexp}

theorem read_eq (h : Reads t items) : Sexp.read t = some items := by
  have hscan := h [] nofun
  rw [List.append_nil] at hscan
  rw [Sexp.read, hscan, Sexp.build_lexemesOfList]
  simp [Lexeme.scan, Sexp.build]

theorem empty : Reads "" [] := fun _ _ => rfl

theorem append (h : Reads t items) (hu : Delimited u.toList) (h' : Reads u more) :
    Reads (t ++ u) (items ++ more) := by
  intro rest hrest
  have hdelimited : Delimited (u.toList ++ rest) := by
    cases hlist : u.toList with
    | nil => exact hrest
    | cons c cs =>
      rw [hlist] at hu
      exact hu
  rw [String.toList_append, List.append_assoc, h _ hdelimited, h' _ hrest,
    Sexp.lexemesOfList_append, List.append_assoc]

/-- Characters that neither delimit nor quote are a word. -/
theorem word (hne : t ≠ "") (h : ∀ c ∈ t.toList, ¬ isDelimiter c ∧ c ≠ '"') :
    Reads t [.word t] := by
  intro rest hrest
  cases hlist : t.toList with
  | nil => exact absurd (String.toList_eq_nil_iff.1 hlist) hne
  | cons c cs =>
    rw [hlist, List.forall_mem_cons] at h
    have ht : ofReversed (cs.reverse ++ [c]) = .word t := by
      rw [ofReversed, List.reverse_append, List.reverse_reverse]
      exact congrArg Lexeme.word (by rw [← String.ofList_toList (s := t), hlist]; rfl)
    simp only [List.cons_append, scan, h.1.1, h.1.2, if_false]
    rw [scan_word_append (fun c hc => (h.2 c hc).1), scan_word_of_delimited _ hrest, ht]
    rfl

theorem quote (s : String) : Reads (Text.quote s) [.word (Text.quote s)] := by
  intro rest _
  have hs : ofReversed ('"' :: ((s.toList.flatMap Text.escape).reverse ++ ['"'])) =
      .word (Text.quote s) := by
    rw [ofReversed, Text.quote]
    simp
  rw [Text.toList_quote, List.cons_append, List.append_assoc]
  simp only [scan]
  rw [if_neg (by decide), if_pos trivial, scan_quoted_flatMap]
  simp only [List.cons_append, List.nil_append, scan, if_true]
  rw [hs]
  rfl

theorem separated {sep : String} (hsep : Separates sep) (h : Reads t items) :
    Reads (sep ++ t) items := by
  intro rest hrest
  rw [String.toList_append, List.append_assoc, hsep.skipped]
  exact h rest hrest

/-- What stands between parentheses is a list. -/
theorem parenthesized (h : Reads t items) : Reads ("(" ++ t ++ ")") [.list items] := by
  intro rest hrest
  have hclosing : Delimited (")".toList ++ rest) := by
    rintro c ⟨⟩
    rfl
  rw [String.toList_append, String.toList_append, List.append_assoc, List.append_assoc]
  change Lexeme.opening :: scan .blank (t.toList ++ (")".toList ++ rest)) = _
  rw [h _ hclosing]
  change _ :: (_ ++ Lexeme.closing :: scan .blank rest) = _
  simp [Sexp.lexemesOfList, Sexp.lexemes]

end Reads

end Treescript
