import StyleTree.Command

/-!
# The program

Reads the file that the command line names, and prints and writes what the command makes of it.
-/

namespace StyleTree.Main

/-- The text of a file, `none` if it cannot be read. -/
def readText? (path : String) : IO (Option String) := do
  try
    return some (← IO.FS.readFile path)
  catch _ => return none

/-- Writes a file; the exit code is 1 if that fails. -/
def writeText (path text : String) : IO UInt32 := do
  try
    IO.FS.writeFile path text
    return 0
  catch _ =>
    IO.eprintln ("failed to write `" ++ path ++ "`")
    return 1

/-- Prints a result and writes its file. -/
def finish (result : CommandResult) : IO UInt32 := do
  IO.print result.stdout
  IO.eprint result.stderr
  match result.file with
  | none => return result.exitCode.toUInt32
  | some (path, text) =>
    let code ← writeText path text
    return if code = 0 then result.exitCode.toUInt32 else code

end StyleTree.Main

/-- Runs the command that the arguments name. -/
def main (arguments : List String) : IO UInt32 := do
  match StyleTree.Command.ofArguments? arguments with
  | none => StyleTree.Main.finish StyleTree.Command.usage
  | some command =>
    StyleTree.Main.finish (command.run (← StyleTree.Main.readText? command.path))
