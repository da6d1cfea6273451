import Treescript.Command.Dispatch

/-!
# The command line

Brings in the files a command may read, performs the command, and carries out what it did.
-/

namespace Treescript

/-- The files among the given names that can be read. -/
def readFiles (names : List String) : IO (List (String × String)) :=
  names.filterMapM fun (name : String) => do
    try return some (name, ← IO.FS.readFile name)
    catch _ => return none

/-- The files with the folder of a name, if a file can be opened there. -/
def withFolderOf (name : String) (files : Files) : IO Files := do
  try
    let _ ← IO.FS.Handle.mk name .append
    return { files with folders := Files.folder name :: files.folders }
  catch _ => return files

end Treescript

open Treescript in
/-- Performs a command and ends with its status. -/
def main (args : List String) : IO UInt32 := do
  let found := Files.ofList (← readFiles (Command.reads args))
  let files ←
    match Command.opens? found args with
    | some name => withFolderOf name found
    | none => pure found
  let start := (← IO.monoNanosNow).toFloat / 1e9
  let clock : Clock := ⟨fun n => start + n.toFloat / 1e9, 0⟩
  let (status, console) := (Command.dispatch clock args).run (.start files)
  IO.print console.stdout
  IO.eprint console.stderr
  for (name, text) in files.changes console.files do IO.FS.writeFile name text
  return UInt32.ofNat status.code
