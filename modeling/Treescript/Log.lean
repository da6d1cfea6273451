import Treescript.Literal
import Treescript.Text.Blank
import Treescript.Text.LetterCase

/-!
# Session logs

Records with a level, a message and attributes, written one to a line as text or as JSON. A logger
lets through the records from its own level on.
-/

namespace Treescript

/-- Four named levels, four apart, with numbers for everything between and around them. -/
abbrev Level := Int64

namespace Level

def debug : Level := -4
def info : Level := 0
def warn : Level := 4
def error : Level := 8

/-- A level as the nearest named one below it and an offset. -/
def label (l : Level) : String :=
  let from_ (base : String) (n : Level) : String :=
    let offset := (l - n).toInt
    if offset = 0 then base
    else base ++ (if offset < 0 then "" else "+") ++ toString offset
  if l < info then from_ "DEBUG" debug
  else if l < warn then from_ "INFO" info
  else if l < error then from_ "WARN" warn
  else from_ "ERROR" error

/-- Why a text is not a level. -/
inductive Fault where
  | unknownName
  | badOffset (text : String)
  | offsetOutOfRange (text : String)

def Fault.message (level : String) (f : Fault) : String :=
  "log_level: slog: level string " ++ Text.quote level ++ ": " ++
    match f with
    | unknownName => "unknown name"
    | badOffset text => "strconv.Atoi: parsing " ++ Text.quote text ++ ": invalid syntax"
    | offsetOutOfRange text => "strconv.Atoi: parsing " ++ Text.quote text ++ ": value out of range"

/-- Reads a signed decimal number that fits 64 bits. -/
def readOffset (cs : List Char) : Except Fault Int64 :=
  let text := String.ofList cs
  let (negative, digits) :=
    match cs with
    | '-' :: rest => (true, rest)
    | '+' :: rest => (false, rest)
    | _ => (false, cs)
  if digits.isEmpty || !digits.all Char.isDigit then .error (.badOffset text)
  else
    let magnitude : Int := digits.foldl (fun n c => 10 * n + (c.toNat - '0'.toNat)) 0
    let n := if negative then -magnitude else magnitude
    if n < -9223372036854775808 ∨ 9223372036854775807 < n then .error (.offsetOutOfRange text)
    else .ok (Int64.ofInt n)

/-- Reads the name of a level in any case, with an optional signed offset. -/
def read (s : String) : Except Fault Level := do
  let isSign (c : Char) := c == '+' || c == '-'
  let name := s.toList.takeWhile (!isSign ·)
  let rest := s.toList.dropWhile (!isSign ·)
  let offset ← if rest.isEmpty then pure 0 else readOffset rest
  match Text.upper (String.ofList name) with
  | "DEBUG" => return debug + offset
  | "INFO" => return info + offset
  | "WARN" => return warn + offset
  | "ERROR" => return error + offset
  | _ => throw .unknownName

end Level

structure Record where
  level : Level
  message : String
  attrs : List (String × Literal)

/-- How records are written. -/
inductive LogFormat where
  | text | json
  deriving DecidableEq, Repr

namespace Record

/-- Whether a text has to be quoted to stand in a line of `key=value` pairs. -/
def needsQuotes (s : String) : Bool :=
  s.isEmpty || s.toList.any fun c =>
    if c.toNat < 0x80 then c.toNat < 0x20 || c == ' ' || c == '"' || c == '='
    else c == '\uFFFD' || Text.isBlank c || !Text.isPrintable c

def word (s : String) : String := if needsQuotes s then Text.quote s else s

def textValue : Literal → String
  | .text s => word s
  | l => l.plain

def asText (r : Record) : String :=
  " ".intercalate
    (("level=" ++ r.level.label) :: ("msg=" ++ word r.message) ::
      r.attrs.map fun a => word a.1 ++ "=" ++ textValue a.2)

def jsonChar (c : Char) : List Char :=
  if c = '"' then ['\\', '"']
  else if c = '\\' then ['\\', '\\']
  else if c = '\n' then ['\\', 'n']
  else if c = '\r' then ['\\', 'r']
  else if c = '\t' then ['\\', 't']
  else if c.toNat < 0x20 || c.toNat = 0x2028 || c.toNat = 0x2029 then
    '\\' :: 'u' :: Text.hex 4 c.toNat
  else [c]

def jsonText (s : String) : String :=
  String.ofList ('"' :: s.toList.flatMap jsonChar ++ ['"'])

/-- Numbers in JSON: an exponent below a millionth and from `10 ^ 21` on. -/
def jsonNumber : Decimal.Layout := ⟨some (-6), some 21, 1⟩

def jsonValue : Literal → String
  | .null => "null"
  | .text s => jsonText s
  | .float x =>
    if x.isNaN || x.isInf then
      jsonText ("!ERROR:json: unsupported value: " ++ Decimal.text jsonNumber x)
    else Decimal.text jsonNumber x
  | l => l.plain

def asJson (r : Record) : String :=
  "\x7b" ++ ",".intercalate
    (("\"level\":" ++ jsonText r.level.label) :: ("\"msg\":" ++ jsonText r.message) ::
      r.attrs.map fun a => jsonText a.1 ++ ":" ++ jsonValue a.2) ++ "\x7d"

end Record

/-- Where records go: how they are written, and from which level on. -/
structure Logger where
  level : Level
  format : LogFormat

namespace Logger

def lets (l : Logger) (level : Level) : Bool := l.level ≤ level

/-- The line a record leaves in the log, empty when the logger holds it back. -/
def line (l : Logger) (r : Record) : String :=
  if l.lets r.level then
    (match l.format with
      | .text => r.asText
      | .json => r.asJson) ++ "\n"
  else ""

end Logger

end Treescript
