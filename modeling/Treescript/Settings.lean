import Treescript.Log
import Treescript.Native
import Treescript.Yaml.Fit

/-!
# Settings

The settings of a session: its log, where printed lines go, and the modules it is given.
-/

namespace Treescript

structure Settings where
  logLevel : String := "warn"
  logFormat : String := "text"
  /-- Where printed lines go: `stdout`, `stderr` or the name of a file. -/
  output : String := "stdout"
  natives : List String := []

namespace Settings

/-- What is wrong with settings. -/
inductive Fault where
  | level (f : Level.Fault)
  | format
  | output
  | module (name : String)

def Fault.message (s : Settings) : Fault → String
  | level f => f.message s.logLevel
  | format => "log_format must be \"text\" or \"json\", got " ++ Text.quote s.logFormat
  | output => "output must not be empty"
  | .module name =>
    "unknown natives module " ++ Text.quote name ++ " (known: " ++ Module.known ++ ")"

def format? (s : Settings) : Option LogFormat :=
  match s.logFormat with
  | "text" => some .text
  | "json" => some .json
  | _ => none

/-- The first thing that is wrong with settings. -/
def fault? (s : Settings) : Option Fault :=
  match Level.read s.logLevel with
  | .error f => some (.level f)
  | .ok _ =>
    if s.format?.isNone then some .format
    else if Text.trim s.output = "" then some .output
    else (s.natives.find? fun n => (Module.ofName? n).isNone).map .module

/-- The logger of a session. A level that cannot be read counts as `warn`, an unknown format as
text. -/
def logger (s : Settings) : Logger :=
  ⟨match Level.read s.logLevel with
    | .ok l => l
    | .error _ => .warn,
    s.format?.getD .text⟩

/-- The fields of a settings document. Null leaves a text as it is. -/
def field : String → Option (Yaml → Settings → Fitting Settings)
  | "log_level" => some fun y s => return { s with logLevel := (← Fitting.text? y).getD s.logLevel }
  | "log_format" =>
    some fun y s => return { s with logFormat := (← Fitting.text? y).getD s.logFormat }
  | "output" => some fun y s => return { s with output := (← Fitting.text? y).getD s.output }
  | "natives" =>
    some fun y s => return { s with natives := ← Fitting.list .texts Fitting.textItems y }
  | _ => none

/-- Why there are no settings in a text. -/
inductive LoadFault where
  | unfit (u : Unfit)
  | invalid (s : Settings) (f : Fault)

def LoadFault.message : LoadFault → String
  | unfit u => u.message
  | invalid s f => f.message s

/-- Settings from a YAML node, on top of the defaults. -/
def ofYaml (y : Option Yaml) : Except LoadFault Settings :=
  let fitted : Except Unfit Settings :=
    match y with
    | none => .ok {}
    | some y => (Fitting.record .settings field {} y).complete
  match fitted with
  | .error u => .error (.unfit u)
  | .ok s =>
    match s.fault? with
    | none => .ok s
    | some f => .error (.invalid s f)

def ofText (text : String) : Except LoadFault Settings :=
  match Yaml.read text with
  | .error u => .error (.unfit u)
  | .ok y => ofYaml y

end Settings

end Treescript
