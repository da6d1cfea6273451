import Mathlib.Algebra.GroupWithZero.Nat
import Treescript.Text.Quoted

/-!
# Quoted text read back

The escapes of quoted text can be told apart and undone: each begins with a backslash, the character
behind it says how many hexadecimal digits follow, and these determine a code point. So a text is
what its quoted form says.
-/

namespace Treescript.Text

def hexDigit (c : Char) : Nat :=
  if c.isDigit then c.toNat - '0'.toNat else c.toNat - 'a'.toNat + 10

/-- The number that hexadecimal digits stand for. -/
def hexValue (cs : List Char) : Nat := cs.foldl (fun n c => 16 * n + hexDigit c) 0

theorem hexDigit_digitChar : ∀ d < 16, hexDigit (Nat.digitChar d) = d := by decide

theorem hexValue_toDigits (n : Nat) : hexValue (Nat.toDigits 16 n) = n := by
  induction n using Nat.base_induction 16 (by decide) with
  | single d hd => simp [Nat.toDigits_of_lt_base hd, hexValue, hexDigit_digitChar d hd]
  | digit n d hd hn ih =>
    rw [hexValue] at ih ⊢
    rw [← Nat.toDigits_append_toDigits (by decide) hn hd, List.foldl_append, ih,
      Nat.toDigits_of_lt_base hd, List.foldl_cons, List.foldl_nil, hexDigit_digitChar d hd]

theorem hexValue_hex (width n : Nat) : hexValue (hex width n) = n := by
  have hzeros : ∀ k, (List.replicate k '0').foldl (fun n c => 16 * n + hexDigit c) 0 = 0 := by
    intro k
    induction k with
    | zero => rfl
    | succ k ih => exact ih
  have hdigits := hexValue_toDigits n
  rw [hexValue] at hdigits ⊢
  rw [hex, List.foldl_append, hzeros, hdigits]

theorem length_hex {width n : Nat} (hw : 0 < width) (h : n < 16 ^ width) :
    (hex width n).length = width := by
  have hle := (Nat.length_toDigits_le_iff (by decide) hw).2 h
  simp only [hex, List.length_append, List.length_replicate]
  omega

theorem isAlphanum_digitChar : ∀ d < 16, (Nat.digitChar d).isAlphanum := by decide

theorem isAlphanum_of_mem_toDigits {n : Nat} : ∀ c ∈ Nat.toDigits 16 n, c.isAlphanum := by
  induction n using Nat.base_induction 16 (by decide) with
  | single d hd => simp [Nat.toDigits_of_lt_base hd, isAlphanum_digitChar d hd]
  | digit n d hd hn ih =>
    rw [← Nat.toDigits_append_toDigits (by decide) hn hd, Nat.toDigits_of_lt_base hd]
    exact List.forall_mem_append.2 ⟨ih, List.forall_mem_singleton.2 (isAlphanum_digitChar d hd)⟩

theorem isAlphanum_of_mem_hex {width n : Nat} : ∀ c ∈ hex width n, c.isAlphanum := by
  rw [hex, List.forall_mem_append]
  refine ⟨fun c hc => ?_, isAlphanum_of_mem_toDigits⟩
  rw [(List.mem_replicate.1 hc).2]
  decide

/-- The character that an escape without digits stands for. -/
def unnamed : Char → Char
  | 'a' => '\x07'
  | 'b' => '\x08'
  | 'f' => '\x0c'
  | 'n' => '\n'
  | 'r' => '\r'
  | 't' => '\t'
  | 'v' => '\x0b'
  | c => c

/-- The number of digits that an escape has. -/
def escapeWidth : Char → Nat
  | 'x' => 2
  | 'u' => 4
  | 'U' => 8
  | _ => 0

/-- Undoes the escapes of a text. Some digits of an escape may be yet to come, behind others that
stand for `n`. -/
def unescapeFrom : (digits : Nat) → (n : Nat) → List Char → List Char
  | _, _, [] => []
  | 0, _, '\\' :: c :: rest =>
    if escapeWidth c = 0 then unnamed c :: unescapeFrom 0 0 rest
    else unescapeFrom (escapeWidth c) 0 rest
  | 0, _, c :: rest => c :: unescapeFrom 0 0 rest
  | 1, n, c :: rest => Char.ofNat (16 * n + hexDigit c) :: unescapeFrom 0 0 rest
  | digits + 2, n, c :: rest => unescapeFrom (digits + 1) (16 * n + hexDigit c) rest

def unescape (cs : List Char) : List Char := unescapeFrom 0 0 cs

theorem unescape_cons {c : Char} (h : c ≠ '\\') (rest : List Char) :
    unescape (c :: rest) = c :: unescape rest := by
  rw [unescape, unescapeFrom]
  · rfl
  · rintro c' rest' rfl
    exact absurd rfl h

theorem unescapeFrom_append (d : Char) (digits : List Char) (n : Nat) (rest : List Char) :
    unescapeFrom (digits.length + 1) n (d :: digits ++ rest) =
      Char.ofNat ((d :: digits).foldl (fun n c => 16 * n + hexDigit c) n) :: unescape rest := by
  induction digits generalizing d n with
  | nil => simp [unescapeFrom, unescape]
  | cons d' digits ih =>
    rw [List.length_cons, List.cons_append, unescapeFrom, ih]
    rfl

/-- An escape with enough digits for its character is undone. -/
theorem unescape_hex {kind c : Char} {width : Nat} (hwidth : escapeWidth kind = width + 1)
    (h : c.toNat < 16 ^ (width + 1)) (rest : List Char) :
    unescape ('\\' :: kind :: hex (width + 1) c.toNat ++ rest) = c :: unescape rest := by
  have hvalue := hexValue_hex (width + 1) c.toNat
  have hlength := length_hex (Nat.succ_pos width) h
  generalize hex (width + 1) c.toNat = digits at hvalue hlength
  cases digits with
  | nil => cases hlength
  | cons d digits =>
    obtain rfl : digits.length = width := Nat.succ.inj hlength
    rw [hexValue] at hvalue
    have hne : ¬ escapeWidth kind = 0 := by omega
    rw [unescape, List.cons_append, List.cons_append, unescapeFrom, if_neg hne, hwidth,
      unescapeFrom_append, hvalue, Char.ofNat_toNat]

theorem toNat_lt (c : Char) : c.toNat < 16 ^ 8 := by
  have h := c.valid
  rw [UInt32.isValidChar, Nat.isValidChar] at h
  change c.val.toNat < 16 ^ 8
  omega

theorem ofNat_eq {c : Char} {n : Nat} (h : c.toNat = n) : Char.ofNat n = c := by
  rw [← h, Char.ofNat_toNat]

/-- The ways to write a character between quotes. -/
inductive Escapes (c : Char) : List Char → Prop
  | plain (hquote : c ≠ '"') (hslash : c ≠ '\\') : Escapes c [c]
  | named (d : Char) (hwidth : escapeWidth d = 0) (h : unnamed d = c) : Escapes c ['\\', d]
  | coded (kind : Char) {width : Nat} (hwidth : escapeWidth kind = width + 1)
    (h : c.toNat < 16 ^ (width + 1)) : Escapes c ('\\' :: kind :: hex (width + 1) c.toNat)

theorem escapes_escape (c : Char) : Escapes c (escape c) := by
  rw [escape]
  refine iteInduction (fun h => .named '"' rfl h.symm) fun hquote => ?_
  refine iteInduction (fun h => .named '\\' rfl h.symm) fun hslash => ?_
  refine iteInduction (fun _ => .plain hquote hslash) fun _ => ?_
  refine iteInduction (fun h => .named 'a' rfl (ofNat_eq h)) fun _ => ?_
  refine iteInduction (fun h => .named 'b' rfl (ofNat_eq h)) fun _ => ?_
  refine iteInduction (fun h => .named 'f' rfl (ofNat_eq h)) fun _ => ?_
  refine iteInduction (fun h => .named 'n' rfl h.symm) fun _ => ?_
  refine iteInduction (fun h => .named 'r' rfl h.symm) fun _ => ?_
  refine iteInduction (fun h => .named 't' rfl h.symm) fun _ => ?_
  refine iteInduction (fun h => .named 'v' rfl (ofNat_eq h)) fun _ => ?_
  refine iteInduction (fun h => .coded 'x' rfl (by omega)) fun _ => ?_
  exact iteInduction (fun h => .coded 'u' rfl (by omega)) fun _ => .coded 'U' rfl (toNat_lt c)

theorem unescape_escape (c : Char) (rest : List Char) :
    unescape (escape c ++ rest) = c :: unescape rest := by
  have h := escapes_escape c
  generalize escape c = written at h
  cases h with
  | plain hquote hslash => exact unescape_cons hslash rest
  | named d hwidth h =>
    rw [unescape, List.cons_append, List.cons_append, unescapeFrom, if_pos hwidth, h]
    rfl
  | coded kind hwidth h => exact unescape_hex hwidth h rest

/-- The text that a quoted one stands for. -/
def unquote (s : String) : String := String.ofList (unescape s.toList.tail.dropLast)

theorem toList_quote (s : String) :
    (quote s).toList = '"' :: (s.toList.flatMap escape ++ ['"']) := by
  rw [quote, String.toList_ofList, List.cons_append]

theorem unquote_quote (s : String) : unquote (quote s) = s := by
  have hbody : ∀ cs : List Char, unescape (cs.flatMap escape) = cs := by
    intro cs
    induction cs with
    | nil => rfl
    | cons c cs ih => rw [List.flatMap_cons, unescape_escape, ih]
  rw [unquote, toList_quote, List.tail_cons, List.dropLast_concat, hbody, String.ofList_toList]

end Treescript.Text
