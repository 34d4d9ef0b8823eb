import BehaviorTree.CommandLine
import BehaviorTree.Json.Printer

/-!
# The program
-/

open BehaviorTree

/-- The error code of reading a directory like a file. -/
def isDirectoryCode : UInt32 := 21

/-- Looks at a path of the file system.  One that goes through a file leads
nowhere. -/
def readPath (path : String) : IO FileContent := do
  try
    return .text (← IO.FS.readFile path)
  catch
    | .noFileOrDirectory .. => return .missing
    | .inappropriateType _ code _ =>
      return if code = isDirectoryCode then .unreadable else .missing
    | _ => return .unreadable

/-- Reads the files that an invocation needs. -/
def readNeeded (directory : String) (arguments : List String) :
    IO (List (String × FileContent)) := do
  match CommandLine.parse arguments with
  | .error _ => return []
  | .ok invocation =>
    (CommandLine.filesRead invocation directory).mapM fun path =>
      return (path, ← readPath path)

def main (arguments : List String) : IO UInt32 := do
  let directory := toString (← IO.currentDir)
  let files ← readNeeded directory arguments
  let outcome :=
    CommandLine.run ⟨directory, fun path => (files.lookup path).getD .missing⟩ arguments
  for line in outcome.lines do
    IO.println line
  if let some blackboard := outcome.blackboard then
    IO.println blackboard.pretty
  if let some message := outcome.message then
    IO.eprintln message
  return outcome.exit.toUInt32
