import Netlist.Reading

/-!
# Sessions

A session keeps one name table and one circuit over a sequence of commands: names are interned,
devices, connections and monitors are made one by one, and whole definitions are read. A refused
command leaves the circuit as it was. Commands are the calls that a user of the library makes on the
name table, the registries and a parser over them, in any order.
-/

namespace Netlist

/-- A name table and a circuit over it. -/
structure Session where
  names : NameTable
  circuit : Circuit

namespace Session

/-- A fresh session, in which `words` are interned before the pin words. -/
def start (words : List String) : Session :=
  let (_, names) := NameTable.empty.internAll words
  let (pins, names) := Pins.intern names
  ⟨names, .empty pins⟩

/-- Interns a name. -/
def intern (s : Session) (name : String) : NameId × Session :=
  let (id, names) := s.names.intern name
  (id, { s with names })

/-- Interns names in order. -/
def internAll (s : Session) (words : List String) : List NameId × Session :=
  let (ids, names) := s.names.internAll words
  (ids, { s with names })

/-- The answer of an operation on the circuit, and the session after it. -/
def settle {ε : Type} (s : Session) : Except ε Circuit → Except ε Unit × Session
  | .ok circuit => (.ok (), { s with circuit })
  | .error e => (.error e, s)

/-- Declares a device. -/
def declare (s : Session) (id : NameId) (kind : DeviceKind) (qualifier : Option Qualifier) :
    Except DeclareError Unit × Session :=
  s.settle (s.circuit.declare id kind qualifier)

/-- Connects an output to an input. -/
def connect (s : Session) (source : Output) (sink : Input) :
    Except ConnectError Unit × Session :=
  s.settle (s.circuit.connect source sink)

/-- Monitors an output. -/
def monitor (s : Session) (output : Output) : Except MonitorError Unit × Session :=
  s.settle (s.circuit.monitor output)

/-- Starts to read a definition in the session. -/
def read (s : Session) (source : String) (limit : Option Nat) : Reading :=
  .start source s.names s.circuit limit

/-- The session behind a reading. -/
def ofReading (r : Reading) : Session := ⟨r.names, r.circuit⟩

end Session

/-- Reads a definition `calls` times over, with the answer and the number of errors after each. -/
def Reading.parseTimes (r : Reading) : Nat → List (Bool × Nat) × Reading
  | 0 => ([], r)
  | calls + 1 =>
    let (result, r) := r.parse
    let (results, r') := r.parseTimes calls
    ((result, r.log.count) :: results, r')

/-- What changes a session. -/
inductive Command
  | intern (name : String)
  | declare (id : NameId) (kind : DeviceKind) (qualifier : Option Qualifier)
  | connect (source : Output) (sink : Input)
  | monitor (output : Output)
  /-- Reads a definition and asks for the result `calls` times. -/
  | read (source : String) (limit : Option Nat) (calls : Nat)
deriving DecidableEq, Repr

namespace Session

/-- The session after a command. -/
def run (s : Session) : Command → Session
  | .intern name => (s.intern name).2
  | .declare id kind qualifier => (s.declare id kind qualifier).2
  | .connect source sink => (s.connect source sink).2
  | .monitor output => (s.monitor output).2
  | .read source limit calls => ofReading ((s.read source limit).parseTimes calls).2

/-- The session after commands in order. -/
def runAll (s : Session) (commands : List Command) : Session := commands.foldl run s

end Session

end Netlist
