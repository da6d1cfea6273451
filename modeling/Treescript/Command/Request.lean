/-!
# Requests

What the arguments of a command ask for: the programs it works on and, with the flag `-c`, the
settings of the session. Flags stand in front of the names of programs. They end at the first word
that is none, and behind `--`.
-/

namespace Treescript

/-- A word of a command line, as far as flags go. -/
inductive Argument where
  /-- A word that is no flag. -/
  | name
  /-- The word that ends the flags. -/
  | separator
  | flag (name : String) (value : Option String)
  | malformed

namespace Argument

/-- A flag without its dashes, and what stands behind the first `=` in it. -/
def ofFlag : List Char → Argument
  | [] | '-' :: _ | '=' :: _ => malformed
  | c :: rest =>
    let name := String.ofList (c :: rest.takeWhile (· != '='))
    match rest.dropWhile (· != '=') with
    | [] => flag name none
    | _ :: value => flag name (some (String.ofList value))

/-- One dash or two introduce a flag. -/
def ofWord (word : String) : Argument :=
  match word.toList with
  | ['-', '-'] => separator
  | '-' :: '-' :: rest => ofFlag rest
  | '-' :: c :: rest => ofFlag (c :: rest)
  | _ => name

end Argument

structure Request where
  /-- The name of the file with the settings; the defaults hold when it is empty. -/
  settings : String
  programs : List String

namespace Request

/-- Why arguments are no request. -/
inductive Fault where
  | malformedFlag (word : String)
  | unknownFlag (name : String)
  | missingValue
  | helpWanted

/-- What is said before the usage of a command is shown. -/
def Fault.message : Fault → String
  | malformedFlag word => "bad flag syntax: " ++ word ++ "\n"
  | unknownFlag name => "flag provided but not defined: -" ++ name ++ "\n"
  | missingValue => "flag needs an argument: -c\n"
  | helpWanted => ""

/-- Reads arguments behind a `-c` that named `settings`; the last one counts. -/
def readFrom (settings : String) : List String → Except Fault Request
  | [] => .ok ⟨settings, []⟩
  | word :: rest =>
    match Argument.ofWord word with
    | .name => .ok ⟨settings, word :: rest⟩
    | .separator => .ok ⟨settings, rest⟩
    | .malformed => .error (.malformedFlag word)
    | .flag "c" (some value) => readFrom value rest
    | .flag "c" none =>
      match rest with
      | [] => .error .missingValue
      | value :: rest => readFrom value rest
    | .flag name _ =>
      .error (if name = "h" ∨ name = "help" then .helpWanted else .unknownFlag name)

def read (args : List String) : Except Fault Request := readFrom "" args

end Request

end Treescript
