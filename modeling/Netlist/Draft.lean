import Netlist.Segment
import Netlist.Statement

/-!
# Drafts

A `Draft` is what the segments read so far amount to: the circuit, the sections entered, and the
devices declared that nothing uses yet. A segment with a fault leaves the circuit and the unused
devices as they were.

A segment is taken in as a whole: `takeHeading` is `parse_heading` and `takeStatement` is
`parse_statement`, on the tokens up to the end of the segment and without the skipping behind a
fault, which ends there too. `omissions` is `check_complete`.
-/

namespace Netlist

/-- What the segments read so far amount to. -/
structure Draft where
  circuit : Circuit
  sections : SectionHistory
  /-- The declared devices that are neither connected as an output nor monitored. -/
  unused : SortedSet NameId

namespace Draft

/-- The draft before the first segment, over a circuit that may hold devices already. -/
def start (c : Circuit) : Draft := ⟨c, .empty, .empty⟩

/-- The fault of a declaration that the circuit refuses. -/
def declarationFault (s : Declaration) : DeclareError → Fault
  | .nameAlreadyUsed => ⟨.nameAlreadyUsed s.name.text, .token s.namePosition⟩
  | .invalidQualifier =>
    ⟨.invalidQualifier s.kind.qualifierForm?,
      .token ((s.qualifier.map Prod.snd).getD s.namePosition)⟩

/-- The fault of a connection that the circuit refuses. -/
def connectionFault (s : Connection) : ConnectError → Fault
  | .inputAlreadyConnected =>
    ⟨.inputAlreadyConnected s.device.text s.pin.text, .token s.pinPosition⟩
  | reason => ⟨.cannotConnect reason, .token s.pinPosition⟩

/-- The fault of a monitor that the circuit refuses. -/
def monitorFault (m : OutputMention) : MonitorError → Fault
  | .pinNotAnOutput => ⟨.notAnOutput, .token m.position⟩
  | .alreadyMonitored => ⟨.alreadyMonitored, .token m.position⟩

/-- Carries out a statement, as the end of `build_device`, `build_connection` and `build_monitor`.
A declared device is unused until an output of it is connected or monitored. -/
def apply (d : Draft) : Statement → Except Fault Draft
  | .declaration s =>
    match d.circuit.declare s.name.id s.kind (s.qualifier.map Prod.fst) with
    | .ok circuit => .ok { d with circuit, unused := d.unused.add s.name.id }
    | .error e => .error (declarationFault s e)
  | .connection s =>
    match d.circuit.connect s.source.output s.sink with
    | .ok circuit => .ok { d with circuit, unused := d.unused.remove s.source.device.id }
    | .error e => .error (connectionFault s e)
  | .monitor m =>
    match d.circuit.monitor m.output with
    | .ok circuit => .ok { d with circuit, unused := d.unused.remove m.device.id }
    | .error e => .error (monitorFault m e)

/-- Reads and carries out the statement of a keyword (`parse_statement`). -/
def takeStatement (d : Draft) (k : Keyword) (position : Position) (tail : List Token) :
    Except Fault Draft :=
  if d.sections.active = some k.homeSection then
    match ((Statement.read d.circuit k).runOn tail).1 with
    | .ok s => d.apply s
    | .error fault => .error fault
  else .error ⟨.outsideSection k, .token position⟩

/-- Enters the section of a heading at a position. A misplaced section is entered too, with a
fault. -/
def enter (d : Draft) (s : Section) (position : Position) : Option Fault × Draft :=
  let (result, sections) := d.sections.enter s
  let fault? := match result with
    | .ok () => none
    | .error fault => some ⟨.misplacedSection fault, .token position⟩
  (fault?, { d with sections })

/-- Enters the section of a heading that has its colon (`parse_heading`). -/
def takeHeading (d : Draft) (s : Section) (position : Position) (tail : List Token) :
    Option Fault × Draft :=
  match ((TokenReader.expect (TokenKind.only .colon) (.colonExpected s)).runOn tail).1 with
  | .error fault => (some fault, d)
  | .ok _ => d.enter s position

/-- Takes in a segment: the draft with it, and the fault if it has one. It is what the loop of
`parse` does for a token that starts a heading, a statement, or neither. -/
def take (d : Draft) (g : Segment) : Option Fault × Draft :=
  match g.head.kind with
  | .heading s _ => d.takeHeading s g.head.position g.tail
  | .keyword k _ =>
    match d.takeStatement k g.head.position g.tail with
    | .ok d => (none, d)
    | .error fault => (some fault, d)
  | _ => (some ⟨.strayToken, .token g.head.position⟩, d)

/-! ## What a finished draft lacks -/

/-- The text of a name, `?` for an identifier without one (`name_of`). -/
def nameText (names : NameTable) (id : NameId) : String := (names.text? id).getD "?"

/-- A section that never came. After another error its heading may be what is broken, so it is
looked for only when there was none. -/
def absentSection (d : Draft) (faultless : Bool) : Option Problem :=
  if faultless then d.sections.firstMissing.map .sectionAbsent else none

/-- The inputs without a driver. -/
def unconnectedInputs (d : Draft) (names : NameTable) : Option Problem :=
  if d.circuit.fullyConnected then none
  else some (.inputsUnconnected
    (d.circuit.unconnected.map fun i => (nameText names i.device, nameText names i.pin)))

/-- The declared devices that nothing uses. -/
def unusedDevices (d : Draft) (names : NameTable) : Option Problem :=
  if d.unused.isEmpty then none
  else some (.devicesUnused (d.unused.keys.map (nameText names)))

/-- What is missing at the end of the input (`check_complete`). -/
def omissions (d : Draft) (names : NameTable) (faultless : Bool) : List Problem :=
  (d.absentSection faultless).toList ++ (d.unconnectedInputs names).toList ++
    (d.unusedDevices names).toList

end Draft

end Netlist
