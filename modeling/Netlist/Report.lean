import Netlist.Diagnostic.Style
import Netlist.Reading

/-!
# Checking a definition

A definition is checked on its own, over a fresh name table and an empty circuit. The bindings for a
browser (`check_definition`) answer parts of a report and are left out.
-/

namespace Netlist

/-- What checking a definition answers (`ParseReport`). -/
structure Report where
  /-- Whether the definition has no error. -/
  success : Bool
  diagnostics : List Diagnostic
  names : NameTable
  circuit : Circuit

namespace Report

/-- The number of errors (`error_count`). -/
def errorCount (r : Report) : Nat := r.diagnostics.length

/-- The diagnostics as plain text (`render`). -/
def render (r : Report) : String := displayAll r.diagnostics

/-- The diagnostics with styles (`print`). -/
def pieces (r : Report) : List Piece := piecesAll r.diagnostics

end Report

/-- Checks a definition (`check`). Reading stops at `limit` errors, if there is a limit. -/
def check (source : String) (limit : Option Nat) : Report :=
  let (pins, names) := Pins.intern .empty
  let (success, r) := (Reading.start source names (.empty pins) limit).parse
  { success, diagnostics := r.log.diagnostics, names := r.names, circuit := r.circuit }

end Netlist
