/-!
# Command line arguments

What the arguments of a run ask for, as `Args` holds them. How the arguments are read off the
command line is no part of this: a run takes the reader as a parameter (`Platform.arguments`).
-/

namespace Netlist

/-- When diagnostics are coloured. -/
inductive ColourMode
  | auto | always | never
deriving DecidableEq, Repr

/-- The least urgent lines that the log of a run shows. -/
inductive LogLevel
  | warn | debug
deriving DecidableEq, Repr

/-- What the arguments ask for. -/
structure Arguments where
  file : String
  /-- The number of errors to stop at. -/
  maxErrors : Option Nat
  colour : ColourMode
  verbose : Bool
deriving DecidableEq, Repr

/-- The level of the log that the arguments ask for. -/
def Arguments.logLevel (a : Arguments) : LogLevel := if a.verbose then .debug else .warn

end Netlist
