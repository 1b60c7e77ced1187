import Netlist.CommandLine.Terminal
import Netlist.Source.File

/-!
# The command line

A run checks one definition file. Standard output shows the diagnostics and one summary line; the
exit code is 0 for a definition without errors, and 1 for any other file.

What the run does not decide itself comes from a `Platform`: the reader of the arguments, the file
system, the terminal and the log. The log is a text behind a function here: the events that lead to
its lines are left out of all modules, for nothing but the log depends on them. That standard output
cannot be written is left out too.
-/

namespace Netlist

/-- What a run answers. -/
structure RunResult where
  exitCode : Nat
  stdout : String
  stderr : String
deriving DecidableEq, Repr

/-- What a run takes from the libraries and the system around it. -/
structure Platform where
  /-- Reads the arguments into `Args`. For arguments that are not well-formed, and for those
  that ask for help or the version, it answers the run itself. -/
  arguments : List String → Except RunResult Arguments
  /-- What a path gives to read. -/
  read : String → FileContent
  terminal : Terminal
  /-- What the log writes while a file is checked. -/
  log : LogLevel → Arguments → FileContent → String

namespace CommandLine

/-- The summary of a checked definition. -/
def summary (r : Report) : String :=
  if r.success then
    toString r.circuit.devices.size ++ " devices, " ++ toString r.circuit.connections ++
      " connections, " ++ toString r.circuit.monitors.size ++ " monitors\n"
  else toString r.errorCount ++ " error(s) found\n"

/-- Checks the file that the arguments name (`run`). The log and an error that keeps the definition
from being checked go to standard error. -/
def runChecked (p : Platform) (a : Arguments) : RunResult :=
  let content := p.read a.file
  let logged := p.log a.logLevel a content
  match checkFile a.file content a.maxErrors with
  | .error e => ⟨1, "", logged ++ "Error: " ++ e.message ++ "\n"⟩
  | .ok r =>
    ⟨if r.success then 0 else 1,
      p.terminal.writeAll (p.terminal.coloured a.colour) r.pieces ++ summary r, logged⟩

/-- Runs the program (`main`). -/
def run (p : Platform) (arguments : List String) : RunResult :=
  match p.arguments arguments with
  | .error result => result
  | .ok a => runChecked p a

end CommandLine

end Netlist
