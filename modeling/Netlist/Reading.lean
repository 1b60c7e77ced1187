import Netlist.Diagnostic.Log
import Netlist.Draft

/-!
# Reading a definition

A `Reading` takes a source segment by segment into a draft and logs the faults. It is finished at
the end of the input, after the checks of the whole draft, or when a limit on the number of errors
is reached.

`readOn` is the loop of `parse`, with a segment for each turn. The parser itself goes token by
token; `Netlist.Reading.Turn` has its turn, which takes in one segment (`Reading.turn?_eq`). At the
end of the input the loop returns in front of its test of the limit, so the checks of the whole
draft may report more errors than the limit.
-/

namespace Netlist

/-- A definition that is being read. -/
structure Reading where
  stream : TokenStream
  draft : Draft
  log : DiagnosticLog
  /-- The number of errors that reading stops at. -/
  limit : Option Nat
  finished : Bool

namespace Reading

/-- Starts to read a source over known names and a circuit (`with_config`). -/
def start (source : String) (names : NameTable) (circuit : Circuit) (limit : Option Nat) :
    Reading where
  stream := .ofSource source names
  draft := .start circuit
  log := .ofSource source
  limit := limit
  finished := false

/-- The names known by now. -/
def names (r : Reading) : NameTable := r.stream.names

/-- The circuit built by now. -/
def circuit (r : Reading) : Circuit := r.draft.circuit

/-- Whether no error was reported. -/
def clean (r : Reading) : Bool := r.log.count = 0

/-- Whether reading has to stop after an error: a limit of 0 stops at the first one too. -/
def limitReached (r : Reading) : Bool :=
  match r.limit with
  | none => false
  | some limit => 0 < r.log.count && limit ≤ r.log.count

/-- Goes on behind a segment: with the draft that takes it in, and its fault if it has one. -/
def goOn (r : Reading) (taken : Option Fault × Draft) (stream : TokenStream) : Reading :=
  let (fault?, draft) := taken
  let log := match fault? with
    | none => r.log
    | some fault => r.log.report fault.problem.message fault.place
  { r with stream, draft, log }

/-- Takes in a segment; `stream` is what follows it. -/
def takeSegment (r : Reading) (g : Segment) (stream : TokenStream) : Reading :=
  r.goOn (r.draft.take g) stream

/-- Marks the reading as finished. -/
def finish (r : Reading) : Reading := { r with finished := true }

/-- Checks the draft at the end of the input (`check_complete`). -/
def complete (r : Reading) : Reading :=
  let omissions := r.draft.omissions r.names r.clean
  { r with log := omissions.foldl (fun log p => log.reportGlobal p.message) r.log }

/-- Reads segment after segment: the loop of `parse`. Answers whether no error was reported. -/
def readOn (r : Reading) : Bool × Reading :=
  match _h : r.stream.segment? with
  | none =>
    let r := r.complete.finish
    (r.clean, r)
  | some (g, stream) =>
    let r' := r.takeSegment g stream
    if r'.limitReached then (false, r'.finish) else r'.readOn
termination_by r.stream.pending.length
decreasing_by exact TokenStream.length_pending_segment? _h

/-- Reads the whole definition, unless that was done before (`parse`). Answers whether no error was
reported. -/
def parse (r : Reading) : Bool × Reading :=
  if r.finished then (r.clean, r) else r.readOn

end Reading

end Netlist
