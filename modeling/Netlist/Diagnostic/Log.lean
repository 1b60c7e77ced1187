import Netlist.Diagnostic
import Netlist.Text.Blank
import Netlist.Text.Line
import Netlist.Token

/-!
# The diagnostics of a source

A `DiagnosticLog` numbers the diagnostics of one source in the order in which they are reported,
and gives each the line that it points into. It is the `Reporter` of a scanner.
-/

namespace Netlist

/-- The diagnostics of a source so far. -/
structure DiagnosticLog where
  /-- The lines of the source. -/
  lines : List String
  diagnostics : List Diagnostic
deriving DecidableEq, Repr

namespace DiagnosticLog

/-- The log of a source before the first report. -/
def ofSource (source : String) : DiagnosticLog :=
  ⟨(Text.lines source.toList).map String.ofList, []⟩

/-- The number of diagnostics. -/
def count (log : DiagnosticLog) : Nat := log.diagnostics.length

/-- A line of the source, counted from 1; empty outside of the source (`line_text`). -/
def lineText (log : DiagnosticLog) : Nat → String
  | 0 => ""
  | n + 1 => (log.lines[n]?).getD ""

/-- The last line with an index, of those that are not blank. -/
def lastText? (lines : List String) : Option (String × Nat) :=
  lines.zipIdx.reverse.find? fun l => !(l.1.toList.all Text.isBlank)

/-- Points just behind the last text of the source; nowhere if the source is blank
(`end_of_file_excerpt`). -/
def endExcerpt (log : DiagnosticLog) : Option Excerpt :=
  (lastText? log.lines).map fun (text, index) =>
    { line := index + 1, column := (Text.trimEnd text.toList).length + 1, text }

/-- The excerpt of a place. -/
def excerpt (log : DiagnosticLog) : Place → Option Excerpt
  | .token p => some ⟨p.line, p.column, log.lineText p.line⟩
  | .endOfInput => log.endExcerpt

/-- Adds a diagnostic with the next number (`push`). -/
def add (log : DiagnosticLog) (message : String) (excerpt : Option Excerpt) : DiagnosticLog :=
  { log with diagnostics := log.diagnostics ++ [⟨log.count + 1, message, excerpt⟩] }

/-- Reports an error at a place (`report_error`). -/
def report (log : DiagnosticLog) (message : String) (place : Place) : DiagnosticLog :=
  log.add message (log.excerpt place)

/-- Reports an error of the whole source (`report_global_error`). -/
def reportGlobal (log : DiagnosticLog) (message : String) : DiagnosticLog :=
  log.add message none

end DiagnosticLog

end Netlist
