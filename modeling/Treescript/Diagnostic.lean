import Treescript.Token

/-!
# Problems

What can be wrong with a program: diagnostics, found before it runs, and aborts, which end a run.
Every problem is located at a token and has one text.
-/

namespace Treescript

/-- The rules of scoping that resolution checks. -/
inductive Rule where
  | duplicateDeclaration
  | selfInitializer
  | parentWithoutScope
  | returnOutsideOperation
  | selfOutsideObject
  deriving DecidableEq, Repr

namespace Rule

def all : List Rule :=
  [duplicateDeclaration, selfInitializer, parentWithoutScope, returnOutsideOperation,
    selfOutsideObject]

def code : Rule → String
  | duplicateDeclaration => "R001"
  | selfInitializer => "R002"
  | parentWithoutScope => "R003"
  | returnOutsideOperation => "R004"
  | selfOutsideObject => "R005"

def name : Rule → String
  | duplicateDeclaration => "duplicate-declaration"
  | selfInitializer => "self-initializer"
  | parentWithoutScope => "parent-without-scope"
  | returnOutsideOperation => "return-outside-operation"
  | selfOutsideObject => "self-outside-object"

def description : Rule → String
  | duplicateDeclaration => "name already declared in this scope"
  | selfInitializer => "variable read in its own initializer"
  | parentWithoutScope => "parent scope reference with no enclosing scope"
  | returnOutsideOperation => "return statement outside any operation"
  | selfOutsideObject => "self used outside an object method"

/-- What is said about a word that breaks the rule. -/
def complaint (rule : Rule) (word : String) : String :=
  match rule with
  | duplicateDeclaration => "'" ++ word ++ "' is already declared in this scope."
  | selfInitializer => "Cannot read '" ++ word ++ "' in its own initializer."
  | parentWithoutScope => "No enclosing scope to read '" ++ word ++ "' from."
  | returnOutsideOperation => "Cannot return from top-level execution."
  | selfOutsideObject => "Cannot use 'self' outside of an object."

end Rule

/-- A broken rule, found by resolution. -/
structure Diagnostic where
  rule : Rule
  token : Token
  message : String

namespace Diagnostic

/-- The diagnostic for a token that breaks a rule. -/
def of (rule : Rule) (token : Token) : Diagnostic :=
  ⟨rule, token, rule.complaint token.text⟩

def text (d : Diagnostic) : String :=
  "[line " ++ toString d.token.row ++ "] Error " ++ d.rule.code ++ " at " ++
    (if d.token.text = "" then "end" else "'" ++ d.token.text ++ "'") ++ ": " ++ d.message

end Diagnostic

/-- The end of a run by an error. An error raised before a call was made lists the arguments, which
were evaluated already. -/
structure Abort where
  token : Token
  message : String
  args : Option (List String)

def Abort.text (a : Abort) : String :=
  a.message ++
    (match a.args with
      | none => ""
      | some args => " (args: " ++ ", ".intercalate args ++ ")") ++
    "\n[line " ++ toString a.token.row ++ "]"

inductive Problem where
  | diagnostic (d : Diagnostic)
  | abort (a : Abort)

namespace Problem

def text : Problem → String
  | diagnostic d => d.text
  | abort a => a.text

/-- The texts of several problems, one to a line; none when there are no problems. -/
def report? (problems : List Problem) : Option String :=
  if problems.isEmpty then none else some ("\n".intercalate (problems.map text))

end Problem

end Treescript
