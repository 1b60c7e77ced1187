import Netlist.Statement.Reader

/-!
# Statements

A statement declares a device, connects an output to an input, or monitors an output:

* `KIND name ;` or `KIND name = number ;`
* `CON output -> name.pin ;`
* `MON output ;`

where an output is a name, with `.Q` or `.QBAR` for a D-type. Nothing may stand around the dot of
an output or an input. Which form an output has depends on the devices declared before, so a
statement is read over a circuit. A reader is the part of `build_device`, `build_connection` or
`build_monitor` that consumes tokens; what the builder then asks of the circuit is `Draft.apply`.
-/

namespace Netlist

/-- The declaration of a device. -/
structure Declaration where
  kind : DeviceKind
  name : Word
  namePosition : Position
  /-- The qualifier, and the position of its number. -/
  qualifier : Option (Qualifier × Position)
deriving DecidableEq, Repr

/-- An output as a statement names it. -/
structure OutputMention where
  device : Word
  pin : Option Word
  /-- The position of the pin, or of the device if there is no pin. -/
  position : Position
deriving DecidableEq, Repr

/-- The output that is named. -/
def OutputMention.output (m : OutputMention) : Output := ⟨m.device.id, m.pin.map Word.id⟩

/-- The connection of an output to an input. -/
structure Connection where
  source : OutputMention
  device : Word
  pin : Word
  pinPosition : Position
deriving DecidableEq, Repr

/-- The input that is connected. -/
def Connection.sink (k : Connection) : Input := ⟨k.device.id, k.pin.id⟩

/-- A statement. -/
inductive Statement
  | declaration (d : Declaration)
  | connection (k : Connection)
  | monitor (m : OutputMention)
deriving DecidableEq, Repr

namespace Statement

open TokenReader

variable {σ : Type} [TokenSource σ]

/-- A name that is not reserved (`expect_name`). -/
def readName : TokenReader σ (Word × Position) := expect TokenKind.name? .invalidName

/-- The `;` at the end (`expect_stop`). -/
def readStop : TokenReader σ Unit := do
  let _ ← expect (TokenKind.only .semicolon) .stopExpected

/-- The qualifier of a declaration, and the position of its number. -/
def readQualifier (form : QualifierForm) : TokenReader σ (Qualifier × Position) := do
  let _ ← expect (TokenKind.only .equal) .equalExpected
  let (digits, position) ← expect TokenKind.number? (.numberExpected form)
  return (form.ofNumeral digits.text, position)

/-- A declaration behind its keyword (`build_device`). -/
def readDeclaration (kind : DeviceKind) : TokenReader σ Declaration := do
  let (name, namePosition) ← readName
  let qualifier ←
    match kind.qualifierForm? with
    | none => pure none
    | some form => do
      let q ← readQualifier form
      pure (some q)
  readStop
  return { kind, name, namePosition, qualifier }

/-- The name of a declared device. -/
def readDevice (c : Circuit) : TokenReader σ (Word × Device × Position) := do
  let (name, position) ← readName
  match c.device? name.id with
  | none => throw ⟨.deviceUndefined name.text, .token position⟩
  | some device => return (name, device, position)

/-- The output pin of a D-type, if a token is one. -/
def dtypeOutput? (c : Circuit) (k : TokenKind) : Option Word :=
  k.pin?.filter fun w => c.pins.dtypeOutputs.contains w.id

/-- An output: a name, and for a D-type a pin (`parse_output`). -/
def readOutput (c : Circuit) : TokenReader σ OutputMention := do
  let (name, device, position) ← readDevice c
  if device.kind = .dtype then
    let _ ← expectRaw (TokenKind.only .dot) (.dtypeDotExpected name.text)
    let (pin, position) ← expectRaw (dtypeOutput? c) .dtypePinExpected
    return ⟨name, some pin, position⟩
  else return ⟨name, none, position⟩

/-- The token behind an output. A dot behind an output without a pin has a wording of its own
(`reject_output_pin`). -/
def readBehind (m : OutputMention) (k : TokenKind) (problem : Problem) : TokenReader σ Unit := do
  let t ← next
  if m.pin.isNone ∧ t.map Token.kind = some .dot then refuse (.singleOutput m.device.text) t
  else
    let _ ← fit (TokenKind.only k) problem t

/-- A connection behind its keyword (`build_connection`). -/
def readConnection (c : Circuit) : TokenReader σ Connection := do
  let source ← readOutput c
  readBehind source .arrow .arrowExpected
  let (name, device, _) ← readDevice c
  let _ ← expectRaw (TokenKind.only .dot) .inputDotExpected
  let (pin, pinPosition) ← expectRaw TokenKind.pin? .inputPinExpected
  if !device.hasInput pin.id then
    throw ⟨.notAnInput pin.text name.text, .token pinPosition⟩
  readStop
  return { source, device := name, pin, pinPosition }

/-- A monitor behind its keyword (`build_monitor`). -/
def readMonitor (c : Circuit) : TokenReader σ OutputMention := do
  let m ← readOutput c
  readBehind m .semicolon .stopExpected
  return m

/-- A statement behind its keyword. -/
def read (c : Circuit) : Keyword → TokenReader σ Statement
  | .device kind => do return .declaration (← readDeclaration kind)
  | .connect => do return .connection (← readConnection c)
  | .monitor => do return .monitor (← readMonitor c)

end Statement

end Netlist
