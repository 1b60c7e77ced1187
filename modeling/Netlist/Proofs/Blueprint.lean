import Mathlib.Data.List.Nodup
import Netlist.Circuit
import Netlist.Proofs.Kinds

/-!
# Blueprints

A blueprint is a circuit in which devices and pins go by their names: a list of parts, of wires and
of probes. It grows by the operations of a circuit, which refuse for the same reasons. Identifiers
do not occur in it, so one blueprint describes circuits over different name tables.

## Results

* `Blueprint.declare_eq_ok_iff`, `Blueprint.connect_eq_ok_iff`, `Blueprint.monitor_eq_ok_iff`: when
  an operation is accepted, and what it does.
* `Blueprint.Coherent.declare`, `Blueprint.Coherent.connect`, `Blueprint.Coherent.monitor`: accepted
  operations keep a blueprint coherent.
-/

namespace Netlist

/-- An output by its names; `none` stands for the only output of a device. -/
structure OutputName where
  device : String
  pin : Option String
deriving DecidableEq, Repr

/-- A connection by its names. -/
structure Wire where
  source : OutputName
  device : String
  pin : String
deriving DecidableEq, Repr

/-- A device by its name. -/
structure Part where
  name : String
  kind : DeviceKind
  setting : Setting
deriving DecidableEq, Repr

/-- The words of the input pins of a part. -/
def Part.inputs (x : Part) : List String := x.kind.inputWords x.setting

/-- A circuit by its names, everything in the order of its making. -/
structure Blueprint where
  parts : List Part
  wires : List Wire
  probes : List OutputName
deriving DecidableEq, Repr

namespace Blueprint

/-- The blueprint of an empty circuit. -/
def empty : Blueprint := ⟨[], [], []⟩

/-- The part with a name. -/
def part? (B : Blueprint) (name : String) : Option Part := B.parts.find? (·.name = name)

/-- Whether an input has a driver. -/
def Driven (B : Blueprint) (device pin : String) : Prop :=
  ∃ w ∈ B.wires, w.device = device ∧ w.pin = pin

instance (B : Blueprint) (device pin : String) : Decidable (B.Driven device pin) := by
  unfold Driven
  infer_instance

/-- Whether an output of a device is connected or monitored. -/
def Uses (B : Blueprint) (device : String) : Prop :=
  (∃ w ∈ B.wires, w.source.device = device) ∨ ∃ o ∈ B.probes, o.device = device

/-- Whether a name is that of an output. -/
def HasOutput (B : Blueprint) (o : OutputName) : Prop :=
  ∃ x ∈ B.parts, x.name = o.device ∧ o.pin ∈ x.kind.outputWords

/-- Whether a device has an input pin. -/
def HasInput (B : Blueprint) (device pin : String) : Prop :=
  ∃ x ∈ B.parts, x.name = device ∧ pin ∈ x.inputs

/-- Declares a device by its name. -/
def declare (B : Blueprint) (name : String) (kind : DeviceKind) (qualifier : Option Qualifier) :
    Except DeclareError Blueprint :=
  if (B.part? name).isSome then .error .nameAlreadyUsed
  else
    match kind.settingFor qualifier with
    | none => .error .invalidQualifier
    | some setting => .ok { B with parts := B.parts ++ [⟨name, kind, setting⟩] }

/-- Connects an output to an input by their names. -/
def connect (B : Blueprint) (w : Wire) : Except ConnectError Blueprint :=
  match B.part? w.source.device with
  | none => .error .deviceAbsent
  | some driver =>
    if w.source.pin ∉ driver.kind.outputWords then .error .outputPinAbsent
    else
      match B.part? w.device with
      | none => .error .deviceAbsent
      | some driven =>
        if w.pin ∉ driven.inputs then .error .inputPinAbsent
        else if B.Driven w.device w.pin then .error .inputAlreadyConnected
        else .ok { B with wires := B.wires ++ [w] }

/-- Monitors an output by its name. -/
def monitor (B : Blueprint) (o : OutputName) : Except MonitorError Blueprint :=
  match B.part? o.device with
  | none => .error .pinNotAnOutput
  | some x =>
    if o.pin ∉ x.kind.outputWords then .error .pinNotAnOutput
    else if o ∈ B.probes then .error .alreadyMonitored
    else .ok { B with probes := B.probes ++ [o] }

/-- What holds of every blueprint that was made by accepted operations. -/
structure Coherent (B : Blueprint) : Prop where
  names : (B.parts.map Part.name).Nodup
  admitted : ∀ x ∈ B.parts, x.kind.Admits x.setting
  sources : ∀ w ∈ B.wires, B.HasOutput w.source
  sinks : ∀ w ∈ B.wires, B.HasInput w.device w.pin
  /-- No input has two drivers. -/
  drivers : (B.wires.map fun w => (w.device, w.pin)).Nodup
  outputs : ∀ o ∈ B.probes, B.HasOutput o
  probes : B.probes.Nodup

variable {B B' : Blueprint}

theorem coherent_empty : empty.Coherent where
  names := List.nodup_nil
  admitted _ h := absurd h List.not_mem_nil
  sources _ h := absurd h List.not_mem_nil
  sinks _ h := absurd h List.not_mem_nil
  drivers := List.nodup_nil
  outputs _ h := absurd h List.not_mem_nil
  probes := List.nodup_nil

/-! ## Parts -/

theorem part?_eq_none_iff {name : String} :
    B.part? name = none ↔ ∀ x ∈ B.parts, x.name ≠ name := by
  unfold part?
  rw [List.find?_eq_none]
  simp

theorem mem_of_part? {name : String} {x : Part} (h : B.part? name = some x) :
    x ∈ B.parts ∧ x.name = name :=
  ⟨List.mem_of_find?_eq_some h, by simpa using List.find?_some h⟩

theorem Coherent.eq_of_name (h : B.Coherent) {x y : Part} (hx : x ∈ B.parts) (hy : y ∈ B.parts)
    (he : x.name = y.name) : x = y :=
  List.inj_on_of_nodup_map h.names hx hy he

theorem Coherent.part?_eq_some_iff (h : B.Coherent) {name : String} {x : Part} :
    B.part? name = some x ↔ x ∈ B.parts ∧ x.name = name := by
  refine ⟨mem_of_part?, ?_⟩
  rintro ⟨hx, rfl⟩
  cases hp : B.part? x.name with
  | none => exact absurd rfl (part?_eq_none_iff.mp hp x hx)
  | some y =>
    obtain ⟨hy, hname⟩ := mem_of_part? hp
    rw [h.eq_of_name hy hx hname]

theorem Coherent.hasOutput_iff (h : B.Coherent) {o : OutputName} :
    B.HasOutput o ↔ ∃ x, B.part? o.device = some x ∧ o.pin ∈ x.kind.outputWords := by
  unfold HasOutput
  simp only [h.part?_eq_some_iff, and_assoc]

theorem Coherent.hasInput_iff (h : B.Coherent) {device pin : String} :
    B.HasInput device pin ↔ ∃ x, B.part? device = some x ∧ pin ∈ x.inputs := by
  unfold HasInput
  simp only [h.part?_eq_some_iff, and_assoc]

/-! ## Accepted operations -/

theorem declare_eq_ok_iff {name : String} {kind : DeviceKind} {qualifier : Option Qualifier} :
    B.declare name kind qualifier = .ok B' ↔
      (∀ x ∈ B.parts, x.name ≠ name) ∧ ∃ setting, kind.settingFor qualifier = some setting ∧
        B' = { B with parts := B.parts ++ [⟨name, kind, setting⟩] } := by
  rw [← part?_eq_none_iff]
  unfold declare
  cases B.part? name with
  | some x => simp
  | none =>
    cases kind.settingFor qualifier with
    | none => simp
    | some setting => simp [eq_comm]

theorem Coherent.connect_eq_ok_iff (h : B.Coherent) {w : Wire} :
    B.connect w = .ok B' ↔ B.HasOutput w.source ∧ B.HasInput w.device w.pin ∧
      ¬B.Driven w.device w.pin ∧ B' = { B with wires := B.wires ++ [w] } := by
  rw [h.hasOutput_iff, h.hasInput_iff]
  unfold connect
  cases B.part? w.source.device with
  | none => simp
  | some driver =>
    by_cases ho : w.source.pin ∈ driver.kind.outputWords
    · cases B.part? w.device with
      | none => simp [ho]
      | some driven =>
        by_cases hi : w.pin ∈ driven.inputs
        · by_cases hd : B.Driven w.device w.pin
          · simp [ho, hi, hd]
          · simp [ho, hi, hd, eq_comm]
        · simp [ho, hi]
    · simp [ho]

theorem Coherent.monitor_eq_ok_iff (h : B.Coherent) {o : OutputName} :
    B.monitor o = .ok B' ↔
      B.HasOutput o ∧ o ∉ B.probes ∧ B' = { B with probes := B.probes ++ [o] } := by
  rw [h.hasOutput_iff]
  unfold monitor
  cases B.part? o.device with
  | none => simp
  | some x =>
    by_cases ho : o.pin ∈ x.kind.outputWords
    · by_cases hm : o ∈ B.probes
      · simp [ho, hm]
      · simp [ho, hm, eq_comm]
    · simp [ho]

/-! ## Coherence is kept -/

theorem HasOutput.of_subset (hs : B.parts ⊆ B'.parts) {o : OutputName} (h : B.HasOutput o) :
    B'.HasOutput o := by
  obtain ⟨x, hx, hn, ho⟩ := h
  exact ⟨x, hs hx, hn, ho⟩

theorem HasInput.of_subset (hs : B.parts ⊆ B'.parts) {device pin : String}
    (h : B.HasInput device pin) : B'.HasInput device pin := by
  obtain ⟨x, hx, hn, hi⟩ := h
  exact ⟨x, hs hx, hn, hi⟩

theorem nodup_append_singleton {α : Type} {as : List α} {a : α} (h : as.Nodup) (ha : a ∉ as) :
    (as ++ [a]).Nodup := by
  rw [List.nodup_append]
  refine ⟨h, List.nodup_singleton a, fun b hb c hc hbc => ha ?_⟩
  rw [← List.mem_singleton.mp hc, ← hbc]
  exact hb

theorem Coherent.declare (h : B.Coherent) {name : String} {kind : DeviceKind}
    {qualifier : Option Qualifier} (hd : B.declare name kind qualifier = .ok B') :
    B'.Coherent := by
  obtain ⟨hn, setting, hs, rfl⟩ := declare_eq_ok_iff.mp hd
  have hsub : B.parts ⊆ B.parts ++ [⟨name, kind, setting⟩] := List.subset_append_left _ _
  refine ⟨?_, fun x hx => ?_, fun w hw => (h.sources w hw).of_subset hsub,
    fun w hw => (h.sinks w hw).of_subset hsub, h.drivers,
    fun o ho => (h.outputs o ho).of_subset hsub, h.probes⟩
  · rw [List.map_append]
    refine nodup_append_singleton h.names fun hm => ?_
    obtain ⟨x, hx, hxn⟩ := List.mem_map.mp hm
    exact hn x hx hxn
  · rcases List.mem_append.mp hx with hx | hx
    · exact h.admitted x hx
    · rw [List.mem_singleton.mp hx]
      exact DeviceKind.admits_of_settingFor hs

theorem Coherent.connect (h : B.Coherent) {w : Wire} (hc : B.connect w = .ok B') :
    B'.Coherent := by
  obtain ⟨ho, hi, hd, rfl⟩ := h.connect_eq_ok_iff.mp hc
  refine ⟨h.names, h.admitted, fun v hv => ?_, fun v hv => ?_, ?_, h.outputs, h.probes⟩
  · rcases List.mem_append.mp hv with hv | hv
    · exact h.sources v hv
    · rw [List.mem_singleton.mp hv]
      exact ho
  · rcases List.mem_append.mp hv with hv | hv
    · exact h.sinks v hv
    · rw [List.mem_singleton.mp hv]
      exact hi
  · rw [List.map_append]
    refine nodup_append_singleton h.drivers fun hm => hd ?_
    obtain ⟨v, hv, he⟩ := List.mem_map.mp hm
    exact ⟨v, hv, Prod.mk.inj he⟩

theorem Coherent.monitor (h : B.Coherent) {o : OutputName} (hm : B.monitor o = .ok B') :
    B'.Coherent := by
  obtain ⟨ho, hn, rfl⟩ := h.monitor_eq_ok_iff.mp hm
  refine ⟨h.names, h.admitted, h.sources, h.sinks, h.drivers, fun p hp => ?_,
    nodup_append_singleton h.probes hn⟩
  rcases List.mem_append.mp hp with hp | hp
  · exact h.outputs p hp
  · rw [List.mem_singleton.mp hp]
    exact ho

end Blueprint

end Netlist
