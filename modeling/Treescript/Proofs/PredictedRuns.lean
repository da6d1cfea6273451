import Treescript.Command.Dispatch

/-!
# Checks that predict runs

`run` and `check` go over the same files with different rules of stopping: `check` goes on behind a
file that breaks the rules of scoping, `run` stops at whatever is wrong. `Files.ready` is what they
have in common, and `Executes` says which programs a run executes and how it ends. A check finds
nothing wrong exactly if all files are ready, and else reports whatever may block a run.
-/

namespace Treescript

/-- What keeps the program of a file from being executed. -/
inductive Obstacle where
  | unloaded (e : FileError LoadError)
  | illScoped (diagnostics : List Diagnostic)

namespace Obstacle

def status : Obstacle → Status
  | unloaded .missing => .noInput
  | unloaded (.content _) => .data
  | illScoped _ => .data

/-- The lines about loading and the diagnostics. -/
def lines (name : String) : Obstacle → List String
  | unloaded e => ["ERROR: " ++ e.programMessage name ++ "\n"]
  | illScoped diagnostics => diagnostics.map fun d => name ++ ": " ++ d.text ++ "\n"

def record (name : String) : Obstacle → Record
  | unloaded e =>
    ⟨.error, "loading program failed", [("file", .text name), ("error", .text (e.programMessage name))]⟩
  | illScoped diagnostics =>
    ⟨.error, "resolution failed",
      [("file", .text name), ("diagnostics", .int (Int64.ofNat diagnostics.length))]⟩

/-- All that is said about an obstacle. -/
def report (logger : Logger) (name : String) (o : Obstacle) : String :=
  String.join (o.lines name) ++ logger.line (o.record name)

end Obstacle

/-- The program of a file with its names resolved, unless there is an obstacle. -/
def Files.ready (f : Files) (name : String) : Except Obstacle Program :=
  match f.program name with
  | .error e => .error (.unloaded e)
  | .ok p =>
    if p.resolve.diagnostics.isEmpty then .ok p.resolve.program
    else .error (.illScoped p.resolve.diagnostics)

namespace Console

/-- The console after a text on the error stream. -/
def complained (c : Console) (text : String) : Console := { c with stderr := c.stderr ++ text }

/-- The console after what a program did has been passed on. -/
def delivered (c : Console) (sink : Sink) (events : Array Event) : Console :=
  ((Task.deliver sink events).run c).2

@[simp] theorem complained_files (c : Console) (text : String) :
    (c.complained text).files = c.files := rfl

@[simp] theorem complained_logger (c : Console) (text : String) :
    (c.complained text).logger = c.logger := rfl

end Console

namespace Task

theorem run_bind {α β : Type} (t : Task α) (f : α → Task β) (c : Console) :
    (t >>= f).run c = (f (t.run c).1).run (t.run c).2 := rfl

end Task

namespace Command

/-- How a run ends: with all files executed, at a file with an obstacle, or with an execution that
does not finish. -/
inductive Conclusion where
  | completed
  | blocked (name : String) (o : Obstacle)
  | failed (name : String) (ending : Ending)

namespace Conclusion

def status : Conclusion → Status
  | completed => .ok
  | blocked _ o => o.status
  | failed .. => .software

/-- What is said at the end. -/
def report (logger : Logger) : Conclusion → String
  | completed => ""
  | blocked name o => o.report logger name
  | failed name (.aborted a) =>
    a.text ++ "\n" ++
      logger.line ⟨.error, "run failed", [("file", .text name), ("error", .text a.text)]⟩
  | failed .. => ""

end Conclusion

/-- A program that has been executed, and what it did. -/
structure Execution where
  program : Program
  events : Array Event

/-- The session after a program and without the events of it. -/
def after (s : Session) (p : Program) : Session := (s.interpret p).2.takeEvents.2

/-- The console after what executed programs did and the report at the end. -/
def closing (sink : Sink) (executed : List Execution) (conclusion : Conclusion) (c : Console) :
    Console :=
  (executed.foldl (fun c x => c.delivered sink x.events) c).complained
    (conclusion.report c.logger)

variable {f : Files} {s : Session} {names : List String} {executed : List Execution}
  {conclusion : Conclusion}

section

variable {args : List String} {r : Request} {c : Console} {settings : Settings}

end

end Command

theorem Module.exists_load {names : List String} (h : ∀ n ∈ names, ∃ m, Module.ofName? n = some m) :
    ∃ entries, Module.load names = .ok entries := by
  induction names with
  | nil => exact ⟨_, rfl⟩
  | cons name rest ih =>
    obtain ⟨⟨m, hm⟩, hrest⟩ := List.forall_mem_cons.1 h
    obtain ⟨entries, hentries⟩ := ih hrest
    refine ⟨m.entries ++ entries, ?_⟩
    rw [Module.load, hm]
    simp only [hentries]
    rfl

theorem Settings.exists_load_of_fault?_eq_none {s : Settings} (h : s.fault? = none) :
    ∃ entries, Module.load s.natives = .ok entries := by
  refine Module.exists_load fun n hn => ?_
  rw [Settings.fault?] at h
  split at h
  · cases h
  · split at h
    · cases h
    · split at h
      · cases h
      · have hfind := List.find?_eq_none.1 (Option.map_eq_none_iff.1 h) n hn
        rw [Option.isNone_iff_eq_none] at hfind
        exact Option.ne_none_iff_exists'.1 hfind

theorem Settings.fault?_of_ofText {text : String} {s : Settings}
    (h : Settings.ofText text = .ok s) : s.fault? = none := by
  rw [Settings.ofText] at h
  split at h
  · cases h
  · rw [Settings.ofYaml.eq_def] at h
    dsimp only at h
    split at h
    · cases h
    · split at h
      · cases h
        assumption
      · cases h

/-- Settings that are accepted name modules only. -/
theorem Files.exists_load {f : Files} {name : String} {s : Settings} (h : f.settings name = .ok s) :
    ∃ entries, Module.load s.natives = .ok entries := by
  rw [Files.settings] at h
  split at h
  · cases h
    exact ⟨_, rfl⟩
  · split at h
    · cases h
    · rename_i text _
      cases hs : Settings.ofText text with
      | error fault =>
        rw [hs] at h
        cases h
      | ok s' =>
        rw [hs] at h
        cases h
        exact Settings.exists_load_of_fault?_eq_none (Settings.fault?_of_ofText hs)

namespace Command

end Command

end Treescript
