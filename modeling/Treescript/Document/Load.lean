import Treescript.Document.Reader
import Treescript.Yaml.Fit

/-!
# Loading programs

A program is a YAML mapping with one field, `statements`. A text without a document, and a document
without statements, is the empty program.
-/

namespace Treescript

/-- Why there is no program in a text. -/
inductive LoadError where
  | unfit (u : Unfit)
  | invalid (i : Invalid)

def LoadError.message : LoadError → String
  | unfit u => "fixtures: " ++ u.message
  | invalid i => i.message

/-- The raw statements of a program document. -/
def Yaml.rawStatements (y : Yaml) : Except Unfit (List Document) :=
  let field : String → Option (Yaml → List Document → Fitting (List Document))
    | "statements" => some fun value _ => Fitting.list .documents Fitting.documents value
    | _ => none
  (Fitting.record .program field [] y).complete

/-- The program that a YAML node encodes. -/
def Program.ofYaml : Option Yaml → Except LoadError Program
  | none => .ok []
  | some y =>
    match y.rawStatements with
    | .error u => .error (.unfit u)
    | .ok ds => (Document.program ds).mapError .invalid

/-- The program that a text encodes. -/
def Program.ofText (text : String) : Except LoadError Program :=
  match Yaml.read text with
  | .error u => .error (.unfit u)
  | .ok y => Program.ofYaml y

end Treescript
