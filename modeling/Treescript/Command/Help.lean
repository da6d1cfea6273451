/-!
# Help

The commands, and what is said about them in colour.
-/

namespace Treescript

inductive Command where
  | check | help | print | run
  deriving DecidableEq, Repr

namespace Command

/-- The commands in the order of their names. -/
def all : List Command := [check, help, print, run]

def name : Command → String
  | check => "check"
  | help => "help"
  | print => "print"
  | run => "run"

def ofName? (name : String) : Option Command := all.find? (·.name == name)

def description : Command → String
  | check => "Resolves the given program documents and reports diagnostics"
  | help => "Prints the usage of all commands"
  | print => "Prints the syntax tree of a program document"
  | run => "Resolves and executes the given program documents in one session"

/-- What the flag `-c` stands for. -/
def settingsFlag : String := "path of a YAML session config"

/-- The flags of a command, with what they stand for. -/
def flags : Command → List (String × String)
  | check | run => [("-c", settingsFlag)]
  | help | print => []

/-- How a command is called, shown when its flags are wrong. -/
def usage (c : Command) : String :=
  "Usage of " ++ c.name ++ ":\n  -c string\n    \t" ++ settingsFlag ++ "\n"

/-- The colours of help texts. -/
inductive Paint where
  | title | command | label | flag | plain

def Paint.code : Paint → String
  | title => "1;35"
  | command => "1;36"
  | label => "1;37"
  | flag => "1;33"
  | plain => "0;37"

def Paint.on (p : Paint) (text : String) : String :=
  "\x1b[" ++ p.code ++ "m" ++ text ++ "\x1b[0m"

def flagLine (indent : String) (flag : String × String) : String :=
  indent ++ Paint.flag.on flag.1 ++ " - " ++ Paint.plain.on flag.2 ++ "\n"

def descriptionLine (indent : String) (c : Command) : String :=
  indent ++ Paint.label.on "Description:" ++ " " ++ Paint.plain.on c.description ++ "\n"

/-- The flags of a command under a heading. -/
def flagLines (indent : String) (c : Command) : String :=
  indent ++ Paint.label.on "Flags:" ++ "\n" ++
    String.join (c.flags.map (flagLine (indent ++ "  ")))

/-- The part of the catalog about one command. -/
def catalogEntry (c : Command) : String :=
  "  " ++ Paint.command.on c.name ++ "\n" ++ descriptionLine "    " c ++
    (if c.flags.isEmpty then "" else flagLines "    " c) ++ "\n"

/-- What is said about all commands. -/
def catalog : String :=
  "\n" ++ Paint.title.on "Supported Commands:" ++ "\n\n" ++ String.join (all.map catalogEntry)

/-- What is said about one command alone. -/
def manual (c : Command) : String :=
  "\n" ++ Paint.title.on "Command:" ++ " " ++ Paint.command.on c.name ++ "\n" ++
    descriptionLine "" c ++
    (if c.flags.isEmpty then Paint.plain.on "(No flags available)" ++ "\n" else flagLines "" c)

end Command

end Treescript
