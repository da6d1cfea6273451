import Treescript.Document.Load
import Treescript.Files
import Treescript.Session
import Treescript.Settings

/-!
# The console

What a command can see and change: the files, the two output streams and the log, whose lines go
to the error stream. A task is a piece of a command's work on a console.
-/

namespace Treescript

/-- How a command ends. -/
inductive Status where
  | ok
  | usage
  | data
  | noInput
  | software
  | settings
  deriving DecidableEq, Repr

def Status.code : Status → Nat
  | ok => 0
  | usage => 64
  | data => 65
  | noInput => 66
  | software => 70
  | settings => 78

/-- Where the lines that programs print go. -/
inductive Sink where
  | stdout
  | stderr
  | file (name : String)
  deriving DecidableEq, Repr

def Sink.ofName : String → Sink
  | "stdout" => stdout
  | "stderr" => stderr
  | name => file name

structure Console where
  files : Files
  stdout : String
  stderr : String
  logger : Logger

/-- A console before any command. -/
def Console.start (files : Files) : Console := ⟨files, "", "", ({} : Settings).logger⟩

/-- Why a file does not give what it should hold. -/
inductive FileError (ε : Type) where
  | missing
  | content (e : ε)

/-- What is said about a file that is not there. -/
def Files.missing (name : String) : String := "open " ++ name ++ ": no such file or directory"

/-- The settings of a file, the defaults when there is no name. -/
def Files.settings (f : Files) (name : String) : Except (FileError Settings.LoadFault) Settings :=
  if name = "" then .ok {}
  else
    match f.get? name with
    | none => .error .missing
    | some text => (Settings.ofText text).mapError .content

/-- The program of a file. -/
def Files.program (f : Files) (name : String) : Except (FileError LoadError) Program :=
  match f.get? name with
  | none => .error .missing
  | some text => (Program.ofText text).mapError .content

def FileError.settingsMessage (name : String) : FileError Settings.LoadFault → String
  | missing => "config: " ++ Files.missing name
  | content f => "config: " ++ name ++ ": " ++ f.message

def FileError.programMessage (name : String) : FileError LoadError → String
  | missing => "fixtures: open " ++ name ++ ": " ++ Files.missing name
  | content e => name ++ ": " ++ e.message

def FileError.programStatus : FileError LoadError → Status
  | missing => .noInput
  | content _ => .data

abbrev Task := StateM Console

namespace Task

def write (text : String) : Sink → Task Unit
  | .stdout => modify fun c => { c with stdout := c.stdout ++ text }
  | .stderr => modify fun c => { c with stderr := c.stderr ++ text }
  | .file name => modify fun c => { c with files := c.files.append name text }

def say (text : String) : Task Unit := write text .stdout

def complain (text : String) : Task Unit := write text .stderr

def complainOf (message : String) : Task Unit := complain ("ERROR: " ++ message ++ "\n")

def log (r : Record) : Task Unit := do complain ((← get).logger.line r)

/-- Passes on what a run did, in order. -/
def deliver (sink : Sink) (events : Array Event) : Task Unit :=
  events.toList.forM fun
    | .printed line => write (line ++ "\n") sink
    | .logged record => log record

/-- Reads the settings of a file and logs as they say from there on. -/
def settings (name : String) : Task (Except Status Settings) := do
  match (← get).files.settings name with
  | .ok s =>
    modify fun c => { c with logger := s.logger }
    return .ok s
  | .error e =>
    complainOf (e.settingsMessage name)
    return .error .settings

/-- Makes the file that printed lines go to, empty. -/
def openSink : Sink → Task (Except Status Unit)
  | .file name => do
    if (← get).files.takes name then
      modify fun c => { c with files := c.files.write name "" }
      return .ok ()
    else
      complainOf ("config: output: " ++ Files.missing name)
      return .error .settings
  | _ => return .ok ()

/-- Says why there is no program in a file. -/
def loadingFailed (name message : String) : Task Unit := do
  complainOf message
  log ⟨.error, "loading program failed", [("file", .text name), ("error", .text message)]⟩

/-- Reads the program of a file. -/
def program (name : String) : Task (Except Status Program) := do
  match (← get).files.program name with
  | .ok p => return .ok p
  | .error e =>
    loadingFailed name (e.programMessage name)
    return .error e.programStatus

/-- Resolves the names of a program and reports what is wrong with them; none when something is. -/
def resolve (name : String) (p : Program) : Task (Option Program) := do
  let r := p.resolve
  if r.diagnostics.isEmpty then return some r.program
  for d in r.diagnostics do complain (name ++ ": " ++ d.text ++ "\n")
  log ⟨.error, "resolution failed",
    [("file", .text name), ("diagnostics", .int (Int64.ofNat r.diagnostics.length))]⟩
  return none

end Task

end Treescript
