import Netlist.Circuit
import Netlist.Vocabulary

/-!
# Problems of a definition

Everything that can be wrong with a definition, and the wording of each. Names are carried as the
texts that the wording shows. A problem is what the parser says with `error_at` at the token where it
stops. Its message `Unknown keyword` is left out, with the branch that would say it (`TokenKind`). The
other messages that no definition draws (`Problem.Live`) are kept: the calls that they answer can be
made on a circuit.
-/

namespace Netlist

/-- What is wrong with a definition. -/
inductive Problem
  /-- Neither a heading nor a keyword starts here. -/
  | strayToken
  | colonExpected (s : Section)
  | misplacedSection (fault : SectionFault)
  /-- The statement does not belong to the active section. -/
  | outsideSection (k : Keyword)
  | invalidName
  | equalExpected
  /-- The number behind `=` is missing. -/
  | numberExpected (form : QualifierForm)
  | stopExpected
  | nameAlreadyUsed (name : String)
  /-- The qualifier is out of range, or does not belong to the kind. -/
  | invalidQualifier (form : Option QualifierForm)
  | deviceUndefined (name : String)
  | dtypeDotExpected (name : String)
  | dtypePinExpected
  /-- A pin follows a device that has a single output. -/
  | singleOutput (name : String)
  | arrowExpected
  | inputDotExpected
  | inputPinExpected
  | notAnInput (pin device : String)
  | inputAlreadyConnected (device pin : String)
  | cannotConnect (reason : ConnectError)
  | notAnOutput
  | alreadyMonitored
  /-- A section never came. -/
  | sectionAbsent (s : Section)
  /-- Inputs without a driver, each a device and a pin. -/
  | inputsUnconnected (inputs : List (String × String))
  | devicesUnused (names : List String)
deriving DecidableEq, Repr

/-- The wording of a missing number. -/
def QualifierForm.missingMessage : QualifierForm → String
  | .inputCount => "Expect the number of input pins here, which should be a number"
  | .switchState => "Expect a switch state here, which should be a number"
  | .clockPeriod => "Expect a clock period here, which should be a number"
  | .rcPeriod => "Expect an RC period here, which should be a number"
  | .waveform =>
    "Expect a sequence of signal values made of 0 (low) and 1 (high), e.g. 110011"

/-- The wording of a number out of range. -/
def QualifierForm.invalidMessage : QualifierForm → String
  | .inputCount => "Number of input pins out of range (1 to 16)"
  | .switchState => "Expect switch state to be 0 (low) or 1 (high)"
  | .clockPeriod => "Expect clock period to be larger than 0"
  | .rcPeriod => "Expect RC period to be larger than 0"
  | .waveform => "Invalid signal value, use 0 for a low and 1 for a high signal"

/-- The wording of a statement in the wrong section. -/
def Keyword.outsideMessage : Keyword → String
  | .device _ => "The device definition is not in a DEVICE section"
  | .connect => "The CON statement is not in a CONNECTION section"
  | .monitor => "The MON statement is not in a MONITOR section"

namespace Problem

/-- A text between single quotes. -/
def quoted (s : String) : String := "'" ++ s ++ "'"

/-- A device and a pin as they are written in a statement. -/
def dotted (device pin : String) : String := device ++ "." ++ pin

/-- The wording of a problem. -/
def message : Problem → String
  | .strayToken => "Expect a section heading or a statement keyword here"
  | .colonExpected s => "A colon is expected after " ++ s.heading
  | .misplacedSection fault => fault.message
  | .outsideSection k => k.outsideMessage
  | .invalidName =>
    "Invalid name: a name is a letter followed by letters or digits, " ++
      "and cannot be a reserved word"
  | .equalExpected => "Expect equal sign"
  | .numberExpected form => form.missingMessage
  | .stopExpected => "Expect stopping sign"
  | .nameAlreadyUsed name => "The name " ++ quoted name ++ " has already been used"
  | .invalidQualifier (some form) => form.invalidMessage
  | .invalidQualifier none => "Invalid qualifier"
  | .deviceUndefined name => "The device " ++ quoted name ++ " is not defined"
  | .dtypeDotExpected name =>
    quoted name ++ " is a DTYPE, a dot followed by the output pin Q or QBAR is expected here"
  | .dtypePinExpected => "A DTYPE output pin is required here, Q or QBAR"
  | .singleOutput name => quoted name ++ " has a single output, no pin name is allowed here"
  | .arrowExpected => "An arrow is expected after the output device/pin"
  | .inputDotExpected => "A dot followed by an input pin name is expected here"
  | .inputPinExpected => "A valid input pin name is expected here"
  | .notAnInput pin device => quoted pin ++ " is not an input pin of " ++ quoted device
  | .inputAlreadyConnected device pin =>
    "The input " ++ quoted (dotted device pin) ++ " is already connected"
  | .cannotConnect reason => "Cannot connect: " ++ reason.message
  | .notAnOutput => "The pin to be monitored is not an output of this device"
  | .alreadyMonitored => "The device/pin is already monitored"
  | .sectionAbsent s => "No valid " ++ s.heading ++ " section found in the definition file"
  | .inputsUnconnected inputs =>
    "Some inputs are not connected: " ++
      String.intercalate ", " (inputs.map fun i => dotted i.1 i.2)
  | .devicesUnused names => "Some devices are never used: " ++ String.intercalate ", " names

end Problem

end Netlist
