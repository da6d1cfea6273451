import Treescript.NameMap

/-!
# Files

The files a command works on: what is in them, and where new ones can be made.
-/

namespace Treescript

structure Files where
  contents : NameMap String
  /-- The folders besides the working folder, each with a slash at its end. -/
  folders : List String

namespace Files

/-- A name without the `./` in front, which leads to the same file. -/
def trimName : List Char → List Char
  | '.' :: '/' :: rest => trimName rest
  | name => name

def plainName (name : String) : String := String.ofList (trimName name.toList)

/-- The folder part of a name, with the slash at its end; empty for the working folder. -/
def folder (name : String) : String :=
  String.ofList (((plainName name).toList.reverse.dropWhile (· != '/')).reverse)

def empty : Files := ⟨.empty, []⟩

def get? (f : Files) (name : String) : Option String := f.contents.get? (plainName name)

/-- Puts a text in place of what a file holds. -/
def write (f : Files) (name text : String) : Files :=
  { f with contents := f.contents.insert (plainName name) text }

/-- Writes behind what a file holds already. -/
def append (f : Files) (name text : String) : Files :=
  f.write name ((f.get? name).getD "" ++ text)

/-- Whether a file can be written under a name: its folder has to be there. -/
def takes (f : Files) (name : String) : Bool :=
  folder name == "" || f.folders.contains (folder name)

/-- Files by name and content. Their folders are there too. -/
def ofList (entries : List (String × String)) : Files :=
  { entries.foldl (fun f e => f.write e.1 e.2) empty with
    folders := entries.map fun e => folder e.1 }

/-- The files that are not as they were before, with what they hold now. -/
def changes (before after : Files) : List (String × String) :=
  after.contents.entries.filter fun e => before.contents.get? e.1 != some e.2

@[simp] theorem get?_write_self (f : Files) (name text : String) :
    (f.write name text).get? name = some text := by
  simp [get?, write]

theorem get?_write_of_ne (f : Files) {name other : String}
    (h : plainName other ≠ plainName name) (text : String) :
    (f.write name text).get? other = f.get? other := by
  simp [get?, write, h]

end Files

end Treescript
