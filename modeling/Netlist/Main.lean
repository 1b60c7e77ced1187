import Netlist.Console

/-!
# The program

Reads the file that the arguments name, and prints what the run answers on a console.
-/

namespace Netlist

/-- What a path gives to read. A path that is missing, leads to a directory or cannot be followed is
no file. -/
def readContent (path : String) : IO FileContent := do
  try
    return .bytes (← IO.FS.readBinFile path)
  catch
    | .noFileOrDirectory .. | .inappropriateType .. | .noSuchThing .. | .invalidArgument .. =>
      return .absent
    | e => return .unreadable (toString e)

/-- The colours that the environment allows. -/
def readEnvironment : IO Console.Environment := do
  return { terminal := ← IO.getEnv "TERM", noColour := (← IO.getEnv "NO_COLOR").isSome }

/-- Runs the program, prints its answer, and gives the exit code. The file is read before the run,
which takes the content as it is. -/
def runProgram (arguments : List String) : IO UInt32 := do
  let content ←
    match Console.arguments arguments with
    | .error _ => pure .absent
    | .ok a => readContent a.file
  let platform := Console.platform (← readEnvironment) fun _ => content
  let result := CommandLine.run platform arguments
  IO.print result.stdout
  IO.eprint result.stderr
  return UInt32.ofNat result.exitCode

end Netlist

/-- Checks the definition file that the arguments name. -/
def main (arguments : List String) : IO UInt32 := Netlist.runProgram arguments
