import Netlist.Device

/-!
# Circuits

A `Circuit` holds the declared devices, the drivers of their inputs and the monitored outputs. It
grows by three operations, `declare`, `connect` and `monitor`; each answers the grown circuit or
the reason why it refuses, and then the circuit stays what it was. A `Network` owns its `Devices`,
and a parser holds it together with its `Monitors`, so the three registries are one value here.
-/

namespace Netlist

/-- Why a device is not declared. -/
inductive DeclareError
  | nameAlreadyUsed
  | invalidQualifier
deriving DecidableEq, Repr

/-- Why an output is not connected to an input. -/
inductive ConnectError
  | deviceAbsent
  | outputPinAbsent
  | inputPinAbsent
  | inputAlreadyConnected
deriving DecidableEq, Repr

/-- Why an output is not monitored. -/
inductive MonitorError
  | pinNotAnOutput
  | alreadyMonitored
deriving DecidableEq, Repr

/-- The wording of a refused declaration. -/
def DeclareError.message : DeclareError → String
  | .nameAlreadyUsed => "device name already declared"
  | .invalidQualifier => "invalid qualifier for device kind"

/-- The wording of a refused connection. -/
def ConnectError.message : ConnectError → String
  | .deviceAbsent => "device does not exist"
  | .outputPinAbsent => "output pin does not exist on device"
  | .inputPinAbsent => "input pin does not exist on device"
  | .inputAlreadyConnected => "input already connected"

/-- The wording of a refused monitor. -/
def MonitorError.message : MonitorError → String
  | .pinNotAnOutput => "pin is not an output"
  | .alreadyMonitored => "output already monitored"

/-- Devices, connections and monitors. -/
structure Circuit where
  pins : Pins
  devices : SortedMap NameId Device
  /-- The number of connections made. -/
  connections : Nat
  monitors : SortedSet Output

namespace Circuit

/-- The circuit without devices, over interned pin words. -/
def empty (pins : Pins) : Circuit := ⟨pins, .empty, 0, .empty⟩

/-- The device declared under an identifier (`get_device`). -/
def device? (c : Circuit) (id : NameId) : Option Device := c.devices.get? id

/-- Declares a device (`make_device`). A used name is refused before the qualifier is looked at. -/
def declare (c : Circuit) (id : NameId) (kind : DeviceKind) (qualifier : Option Qualifier) :
    Except DeclareError Circuit :=
  if c.devices.contains id then .error .nameAlreadyUsed
  else
    match kind.settingFor qualifier with
    | none => .error .invalidQualifier
    | some setting =>
      .ok { c with devices := c.devices.insert id (Device.make c.pins id kind setting) }

/-- Connects an output to an input that has no driver yet (`connect`). -/
def connect (c : Circuit) (source : Output) (sink : Input) : Except ConnectError Circuit :=
  match c.device? source.device with
  | none => .error .deviceAbsent
  | some driver =>
    if !driver.hasOutput source.pin then .error .outputPinAbsent
    else
      match c.device? sink.device with
      | none => .error .deviceAbsent
      | some driven =>
        match driven.inputs.get? sink.pin with
        | none => .error .inputPinAbsent
        | some (some _) => .error .inputAlreadyConnected
        | some none =>
          .ok { c with
            devices := c.devices.modify sink.device fun d => d.drive sink.pin source
            connections := c.connections + 1 }

/-- Monitors an output that is not monitored yet (`add_monitor`). -/
def monitor (c : Circuit) (output : Output) : Except MonitorError Circuit :=
  match c.device? output.device with
  | none => .error .pinNotAnOutput
  | some device =>
    if !device.hasOutput output.pin then .error .pinNotAnOutput
    else if c.monitors.contains output then .error .alreadyMonitored
    else .ok { c with monitors := c.monitors.add output }

/-- The inputs without a driver, by device and then by pin (`unconnected_inputs`). -/
def unconnected (c : Circuit) : List Input :=
  c.devices.values.flatMap fun d => d.undriven.map fun pin => ⟨d.id, pin⟩

/-- Whether every input has a driver (`is_fully_connected`). -/
def fullyConnected (c : Circuit) : Bool := c.unconnected.isEmpty

end Circuit

end Netlist
