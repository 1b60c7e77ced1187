import Netlist.Text.Numeral

/-!
# Kinds of devices

A kind is introduced by its keyword. Most kinds take a qualifier, a number written after `=`;
which values it accepts, and what they set, is decided by the form of the qualifier. The form also
decides the two messages about the number that `DeviceGrammar` has for a kind (`Problem.message`).

## Main definition

* `DeviceKind.settingFor`: the setting that a qualifier gives to a device of a kind, if any.
-/

namespace Netlist

/-- The kinds of devices. -/
inductive DeviceKind
  | and | or | nand | nor | xor
  /-- A flip-flop with two outputs. -/
  | dtype
  | switch
  | clock
  /-- A generator that replays a fixed sequence of levels. -/
  | siggen
  /-- An output that is high for a while and low ever after. -/
  | rc
deriving DecidableEq, Repr

/-- What the number after `=` means. -/
inductive QualifierForm
  /-- The number of inputs of a gate. -/
  | inputCount
  /-- The initial state of a switch. -/
  | switchState
  /-- The half period of a clock. -/
  | clockPeriod
  /-- The time an RC output stays high. -/
  | rcPeriod
  /-- The levels of a signal generator, digit by digit. -/
  | waveform
deriving DecidableEq, Repr

/-- A qualifier as it is read: a number, or a sequence kept character by character. -/
inductive Qualifier
  | value (n : Nat)
  | sequence (text : String)
deriving DecidableEq, Repr

/-- What a qualifier sets. -/
inductive Setting
  /-- The device has nothing to set. -/
  | nothing
  | inputs (count : Nat)
  | switch (high : Bool)
  /-- A number of simulation cycles. -/
  | period (cycles : Nat)
  | waveform (levels : List Bool)
deriving DecidableEq, Repr

/-- The largest number of inputs of a gate. -/
def maxGateInputs : Nat := 16

/-- The longest period, the largest 32-bit word. -/
def maxPeriod : Nat := UInt32.size - 1

/-- The level that a waveform digit stands for. -/
def level? : Char → Option Bool
  | '0' => some false
  | '1' => some true
  | _ => none

namespace QualifierForm

/-- The setting that a qualifier gives under this form, if it is of this form and in range. -/
def setting? : QualifierForm → Qualifier → Option Setting
  | .inputCount, .value n =>
    if 1 ≤ n ∧ n ≤ maxGateInputs then some (.inputs n) else none
  | .switchState, .value 0 => some (.switch false)
  | .switchState, .value 1 => some (.switch true)
  | .clockPeriod, .value n | .rcPeriod, .value n =>
    if 1 ≤ n ∧ n ≤ maxPeriod then some (.period n) else none
  | .waveform, .sequence text =>
    match text.toList.mapM level? with
    | some (b :: bs) => some (.waveform (b :: bs))
    | _ => none
  | _, _ => none

/-- The qualifier that a numeral in the source stands for. -/
def ofNumeral (form : QualifierForm) (digits : String) : Qualifier :=
  if form = .waveform then .sequence digits else .value (Numeral.wordValue digits.toList)

end QualifierForm

namespace DeviceKind

/-- All kinds, in the order in which their keywords are interned. -/
def all : List DeviceKind :=
  [.nand, .and, .or, .nor, .xor, .dtype, .switch, .clock, .siggen, .rc]

/-- The reserved word that introduces a kind. -/
def keyword : DeviceKind → String
  | .and => "AND"
  | .or => "OR"
  | .nand => "NAND"
  | .nor => "NOR"
  | .xor => "XOR"
  | .dtype => "DTYPE"
  | .switch => "SWITCH"
  | .clock => "CLOCK"
  | .siggen => "SIGGEN"
  | .rc => "RC"

/-- The form of the qualifier of a kind, for the kinds that take one (`for_kind`). -/
def qualifierForm? : DeviceKind → Option QualifierForm
  | .and | .or | .nand | .nor => some .inputCount
  | .switch => some .switchState
  | .clock => some .clockPeriod
  | .siggen => some .waveform
  | .rc => some .rcPeriod
  | .xor | .dtype => none

/-- Whether the qualifier of a kind is its number of inputs (`is_sized_gate`). -/
def isSizedGate (kind : DeviceKind) : Bool := kind.qualifierForm? == some .inputCount

/-- The setting of a device of this kind (`setting_for`); `none` if the qualifier is missing,
superfluous, of the wrong form or out of range. -/
def settingFor (kind : DeviceKind) (qualifier : Option Qualifier) : Option Setting :=
  match kind.qualifierForm?, qualifier with
  | none, none => some .nothing
  | some form, some q => form.setting? q
  | _, _ => none

end DeviceKind

end Netlist
