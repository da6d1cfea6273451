import Treescript.Command.Console
import Treescript.Command.Help
import Treescript.Command.Request
import Treescript.Tree.Printer

/-!
# Commands

`run` executes programs one after another in one session, `check` only resolves them, `print` shows
the tree of one program, and `help` tells about the commands.
-/

namespace Treescript.Command

/-- Reads the arguments of a command that takes programs. -/
def request (c : Command) (args : List String) : Task (Except Status Request) := do
  match Request.read args with
  | .error f =>
    Task.complain (f.message ++ c.usage)
    return .error .usage
  | .ok r =>
    if r.programs.isEmpty then
      Task.complainOf ("provide at least one program document to " ++ c.name)
      return .error .usage
    else return .ok r

/-- Reads the request and the settings of a command that takes programs, then goes on. -/
def prepared (c : Command) (args : List String) (k : List String → Settings → Task Status) :
    Task Status := do
  match ← c.request args with
  | .error status => return status
  | .ok r =>
    match ← Task.settings r.settings with
    | .error status => return status
    | .ok s => k r.programs s

/-- Runs the named programs up to the first that cannot be loaded, is not in order, or fails. -/
def runAll (sink : Sink) (session : Session) : List String → Task Status
  | [] => return .ok
  | name :: rest => do
    match ← Task.program name with
    | .error status => return status
    | .ok p =>
      match ← Task.resolve name p with
      | none => return .data
      | some p =>
        let (ending, session) := session.interpret p
        let (events, session) := session.takeEvents
        Task.deliver sink events
        match ending with
        | .finished => runAll sink session rest
        | .aborted a =>
          Task.complain (a.text ++ "\n")
          Task.log ⟨.error, "run failed", [("file", .text name), ("error", .text a.text)]⟩
          return .software
        | .outOfFuel | .fault => return .software

/-- Resolves the named programs, up to the first that cannot be loaded, and tells which of them are
in order. The status so far stands unless there is a worse one. -/
def checkAll (status : Status) : List String → Task Status
  | [] => return status
  | name :: rest => do
    match ← Task.program name with
    | .error status => return status
    | .ok p =>
      match ← Task.resolve name p with
      | none => checkAll .data rest
      | some _ =>
        Task.say (name ++ ": ok\n")
        checkAll status rest

def performRun (clock : Clock) (args : List String) : Task Status :=
  run.prepared args fun programs s => do
    match Module.load s.natives with
    | .error name =>
      Task.complainOf (Module.unknownMessage name)
      return .settings
    | .ok entries =>
      let sink := Sink.ofName s.output
      match ← Task.openSink sink with
      | .error status => return status
      | .ok () => runAll sink (Session.start clock entries) programs

def performCheck (args : List String) : Task Status :=
  check.prepared args fun programs _ => checkAll .ok programs

def performPrint : List String → Task Status
  | [name] => do
    match ← Task.program name with
    | .error status => return status
    | .ok p =>
      Task.say p.print
      return .ok
  | _ => do
    Task.complainOf "provide exactly one program document to print"
    return .usage

def unknown (name : String) : Task Status := do
  Task.complainOf ("unknown command " ++ name ++ ", check help for manual.")
  return .usage

def performHelp : List String → Task Status
  | [] => do
    Task.say (catalog ++ "\n")
    return .ok
  | name :: _ =>
    match ofName? name with
    | none => unknown name
    | some c => do
      Task.say (c.manual ++ "\n")
      return .ok

def perform (clock : Clock) (args : List String) : Command → Task Status
  | check => performCheck args
  | help => performHelp args
  | print => performPrint args
  | run => performRun clock args

/-- Performs the command that the first argument names, with the others as its own. -/
def dispatch (clock : Clock) : List String → Task Status
  | [] => do
    Task.complainOf "at least provide command name to kick off the cli"
    return .usage
  | name :: args =>
    match ofName? name with
    | none => unknown name
    | some c => do
      Task.log ⟨.debug, "command started", [("command", .text name)]⟩
      let status ← c.perform clock args
      Task.log ⟨.debug, "command finished",
        [("command", .text name), ("status", .int (Int64.ofNat status.code))]⟩
      return status

/-- The files that a command may read. -/
def reads : List String → List String
  | [] => []
  | name :: args =>
    match ofName? name with
    | some run | some check =>
      match Request.read args with
      | .ok r => r.settings :: r.programs
      | .error _ => []
    | some print => args
    | _ => []

/-- The file that a command opens for the lines that programs print. -/
def opens? (files : Files) : List String → Option String
  | [] => none
  | name :: args => do
    guard (ofName? name = some run)
    let r ← (Request.read args).toOption
    guard !r.programs.isEmpty
    let s ← (files.settings r.settings).toOption
    match Sink.ofName s.output with
    | .file output => some output
    | _ => none

end Treescript.Command
