import Netlist.Device.Kind
import Netlist.Device.Pin
import Netlist.SortedMap

/-!
# Devices

A device has its kind and setting, the input pins that follow from them, each with the output that
drives it, and its outputs. Most devices have one output without a name; a D-type has two, named
by pins.
-/

namespace Netlist

/-- An output of a device: its only one, or the one that a pin names (`OutputRef`). -/
structure Output where
  device : NameId
  pin : Option NameId
deriving DecidableEq, Repr

namespace Output

/-- Outputs are ordered by this pair: by device, and within a device the output without a name
comes first. -/
def rank (o : Output) : Nat × Nat :=
  match o.pin with
  | none => (o.device, 0)
  | some pin => (o.device, pin + 1)

instance : LT Output where
  lt a b := a.rank.1 < b.rank.1 ∨ a.rank.1 = b.rank.1 ∧ a.rank.2 < b.rank.2

theorem lt_iff {a b : Output} :
    a < b ↔ a.rank.1 < b.rank.1 ∨ a.rank.1 = b.rank.1 ∧ a.rank.2 < b.rank.2 :=
  Iff.rfl

instance : DecidableLT Output := fun _ _ => decidable_of_iff _ lt_iff.symm

theorem eq_of_rank {a b : Output} (h : a.rank = b.rank) : a = b := by
  obtain ⟨d, p⟩ := a
  obtain ⟨e, q⟩ := b
  cases p <;> cases q <;> simp_all [rank]

instance : KeyOrder Output where
  irrefl a h := by rw [lt_iff] at h; omega
  trans h h' := by rw [lt_iff] at *; omega
  connected h h' := by
    rw [lt_iff] at h h'
    exact eq_of_rank (Prod.ext (by omega) (by omega))

end Output

/-- An input pin of a device. -/
structure Input where
  device : NameId
  pin : NameId
deriving DecidableEq, Repr

/-- A declared device. -/
structure Device where
  id : NameId
  kind : DeviceKind
  setting : Setting
  /-- The input pins, each with the output that drives it. -/
  inputs : SortedMap NameId (Option Output)
  /-- The outputs; `none` is an output without a name. -/
  outputs : List (Option NameId)

namespace Device

/-- The input pins of a device of a kind with a setting. -/
def inputPins (pins : Pins) : DeviceKind → Setting → List NameId
  | _, .inputs count => pins.numbered.take count
  | .xor, _ => pins.numbered.take 2
  | .dtype, _ => pins.dtypeInputs
  | _, _ => []

/-- The outputs of a device of a kind. -/
def outputPins (pins : Pins) : DeviceKind → List (Option NameId)
  | .dtype => pins.dtypeOutputs.map some
  | _ => [none]

/-- A device of a kind with a setting, all inputs without a driver. -/
def make (pins : Pins) (id : NameId) (kind : DeviceKind) (setting : Setting) : Device where
  id := id
  kind := kind
  setting := setting
  inputs := (inputPins pins kind setting).foldl (fun m pin => m.insert pin none) .empty
  outputs := outputPins pins kind

/-- Whether a pin is an input of the device (`has_input`). -/
def hasInput (d : Device) (pin : NameId) : Bool := d.inputs.contains pin

/-- Whether a pin, or no pin, names an output of the device (`has_output`). -/
def hasOutput (d : Device) (pin : Option NameId) : Bool := d.outputs.contains pin

/-- The device with a driver at one of its inputs. -/
def drive (d : Device) (pin : NameId) (source : Output) : Device :=
  { d with inputs := d.inputs.modify pin fun _ => some source }

/-- The inputs without a driver, in pin order. -/
def undriven (d : Device) : List NameId :=
  d.inputs.entries.filterMap fun e => if e.2.isNone then some e.1 else none

end Device

end Netlist
