/-!
# YAML nodes

What a YAML text says before its scalars are given a meaning: nested sequences and mappings with
the lines they start on and the tags in front of them, in their short form.
-/

namespace Treescript

/-- A scalar as it is written. -/
structure YamlScalar where
  line : Nat
  tag : Option String
  isQuoted : Bool
  text : String

mutual

inductive Yaml where
  | scalar (s : YamlScalar)
  | sequence (line : Nat) (tag : Option String) (items : List Yaml)
  | mapping (line : Nat) (tag : Option String) (entries : List YamlEntry)

structure YamlEntry where
  key : Yaml
  value : Yaml

end

namespace Yaml

def line : Yaml → Nat
  | scalar s => s.line
  | sequence n _ _ => n
  | mapping n _ _ => n

/-- What stands for a node that is left out: a plain scalar without a text. -/
def absent (line : Nat) : Yaml := scalar ⟨line, none, false, ""⟩

end Yaml

end Treescript
