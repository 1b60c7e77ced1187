import Mathlib.Algebra.BigOperators.Group.List.Basic
import Mathlib.Algebra.GroupWithZero.Nat
import Netlist.Proofs.Containment
import Netlist.Proofs.Kinds

/-!
# Consistent circuits

A circuit is consistent over a name table (`Circuit.Consistent`) when every device is made as its
kind and setting call for, drivers and monitors name outputs that exist, and the number of
connections is the number of inputs with a driver.

## Results

* `Circuit.Consistent.step`, `Circuit.Consistent.of_le`: accepted operations and new names keep a
  circuit consistent.
* `Circuit.connected_add_unconnected`: an input has a driver or is listed as unconnected.
* `Session.consistent_runAll`: **every session that can be reached is consistent**, and the number
  of connections tells whether it is fully connected.
-/

namespace Netlist

/-! ## Inputs of a device -/

namespace Device

/-- The number of inputs with a driver. -/
def driven (d : Device) : Nat := d.inputs.values.countP Option.isSome

/-- An input has a driver or it has none. -/
theorem driven_add_undriven (d : Device) : d.driven + d.undriven.length = d.inputs.size := by
  unfold driven undriven SortedMap.values SortedMap.size
  induction d.inputs.entries with
  | nil => rfl
  | cons e es ih =>
    rw [List.map_cons, List.countP_cons, List.filterMap_cons, List.length_cons]
    cases he : e.2 with
    | none =>
      simp only [Option.isNone_none, if_true, Option.isSome_none, Bool.false_eq_true, if_false,
        List.length_cons]
      omega
    | some o =>
      simp only [Option.isNone_some, Bool.false_eq_true, if_false, Option.isSome_some, if_true]
      omega

theorem get?_foldl_insert (pins : List NameId) (m : SortedMap NameId (Option Output))
    (pin : NameId) :
    (pins.foldl (fun m pin => m.insert pin none) m).get? pin =
      if pin ∈ pins then some none else m.get? pin := by
  induction pins generalizing m with
  | nil => rfl
  | cons p ps ih =>
    rw [List.foldl_cons, ih, SortedMap.get?_insert]
    by_cases hp : pin = p
    · simp [hp]
    · simp [hp]

theorem get?_inputs_make (pins : Pins) (id : NameId) (kind : DeviceKind) (setting : Setting)
    (pin : NameId) :
    (make pins id kind setting).inputs.get? pin =
      if pin ∈ inputPins pins kind setting then some none else none :=
  get?_foldl_insert _ _ _

theorem perm_keys_make {pins : Pins} {kind : DeviceKind} {setting : Setting}
    (h : (inputPins pins kind setting).Nodup) (id : NameId) :
    (make pins id kind setting).inputs.keys.Perm (inputPins pins kind setting) := by
  refine (List.perm_ext_iff_of_nodup (SortedMap.nodup_keys _) h).mpr fun pin => ?_
  rw [SortedMap.mem_keys_iff, SortedMap.contains_iff, get?_inputs_make]
  split <;> simp [*]

theorem driven_make (pins : Pins) (id : NameId) (kind : DeviceKind) (setting : Setting) :
    (make pins id kind setting).driven = 0 := by
  refine List.countP_eq_zero.mpr fun slot hs => ?_
  obtain ⟨pin, hp⟩ := SortedMap.mem_values_iff.mp hs
  rw [get?_inputs_make] at hp
  split at hp
  · cases hp
    exact Bool.false_ne_true
  · exact absurd hp (by simp)

/-- The driver of an input behind a connection is the new one, or was there. -/
theorem get?_inputs_drive {d : Device} {pin j : NameId} {source o : Output}
    (h : (d.drive pin source).inputs.get? j = some (some o)) :
    o = source ∨ d.inputs.get? j = some (some o) := by
  rcases SortedMap.get?_modify_cases h with ⟨-, _, -, hsource⟩ | h
  · exact .inl (Option.some.inj hsource)
  · exact .inr h

/-- A driver at an input that had none is one more. -/
theorem driven_drive {d : Device} {pin : NameId} (h : d.inputs.get? pin = some none)
    (source : Output) : (d.drive pin source).driven = d.driven + 1 := by
  have hsum : ∀ vs : List (Option Output),
      vs.countP Option.isSome = (vs.map fun v => if v.isSome then 1 else 0).sum := by
    intro vs
    induction vs with
    | nil => rfl
    | cons v vs ih =>
      rw [List.countP_cons, List.map_cons, List.sum_cons, ih]
      omega
  have hm := SortedMap.sum_modify h (fun _ => some source) fun v => if v.isSome then 1 else 0
  unfold driven drive
  rw [hsum, hsum]
  simpa using hm

/-- A device under an identifier, made as its kind and setting call for. -/
structure MadeOver (t : NameTable) (id : NameId) (d : Device) : Prop where
  own : d.id = id
  admitted : d.kind.Admits d.setting
  /-- The input pins are the words of the kind and setting, each once. -/
  inputs : (d.inputs.keys.map t.text?).Perm ((d.kind.inputWords d.setting).map some)
  outputs : d.outputs.map (Option.map t.text?) = d.kind.outputWords.map (Option.map some)

variable {t t' : NameTable} {id : NameId} {d : Device}

theorem map_text?_idOf {ws : List String} (h : ∀ w ∈ ws, w ∈ t.names) :
    (ws.map t.idOf).map t.text? = ws.map some := by
  rw [List.map_map]
  exact List.map_congr_left fun w hw => NameTable.text?_idOf (h w hw)

theorem madeOver_make {kind : DeviceKind} {setting : Setting} (hw : ∀ w ∈ Pin.words, w ∈ t.names)
    (h : kind.Admits setting) (id : NameId) : (make (.ofNames t) id kind setting).MadeOver t id where
  own := rfl
  admitted := h
  inputs := by
    have hin : ∀ w ∈ kind.inputWords setting, w ∈ t.names := fun w hm =>
      hw w (DeviceKind.mem_words_of_mem_inputWords h hm)
    have hnodup : (inputPins (.ofNames t) kind setting).Nodup := by
      rw [DeviceKind.inputPins_ofNames h]
      exact List.Nodup.map_on (fun w hm v _ he => (NameTable.idOf_inj (hin w hm)).mp he)
        (DeviceKind.nodup_inputWords h)
    have hperm := (perm_keys_make hnodup id).map t.text?
    rw [DeviceKind.inputPins_ofNames h, map_text?_idOf hin] at hperm
    exact hperm
  outputs := by
    show (outputPins (.ofNames t) kind).map _ = _
    rw [DeviceKind.outputPins_ofNames, List.map_map]
    refine List.map_congr_left fun o ho => ?_
    cases o with
    | none => rfl
    | some w =>
      have hm := hw w (DeviceKind.mem_words_of_mem_outputWords ho)
      simp only [Function.comp_apply, Option.map_some, NameTable.text?_idOf hm]

theorem MadeOver.drive (h : d.MadeOver t id) (pin : NameId) (source : Output) :
    (d.drive pin source).MadeOver t id where
  own := h.own
  admitted := h.admitted
  inputs := by
    show ((d.inputs.modify pin _).keys.map t.text?).Perm _
    rw [SortedMap.keys_modify]
    exact h.inputs
  outputs := h.outputs

/-- Identifiers that have a text keep it. -/
theorem MadeOver.of_le (hle : t ≤ t') (h : d.MadeOver t id) : d.MadeOver t' id where
  own := h.own
  admitted := h.admitted
  inputs := by
    have hkeys : d.inputs.keys.map t'.text? = d.inputs.keys.map t.text? := by
      refine List.map_congr_left fun k hk => ?_
      have hm := h.inputs.subset (List.mem_map_of_mem hk)
      obtain ⟨w, -, hw⟩ := List.mem_map.mp hm
      rw [← hw, NameTable.text?_of_le hle hw.symm]
    rw [hkeys]
    exact h.inputs
  outputs := by
    rw [← h.outputs]
    refine List.map_congr_left fun o ho => ?_
    cases o with
    | none => rfl
    | some k =>
      have hm : some (t.text? k) ∈ d.kind.outputWords.map (Option.map some) := by
        rw [← h.outputs]
        exact List.mem_map.mpr ⟨some k, ho, rfl⟩
      obtain ⟨w, -, hw⟩ := List.mem_map.mp hm
      obtain ⟨v, rfl, hv⟩ := Option.map_eq_some_iff.mp hw
      simp only [Option.map_some, ← hv, NameTable.text?_of_le hle hv.symm]

end Device

/-! ## Consistent circuits -/

namespace Circuit

/-- The number of inputs with a driver. -/
def connected (c : Circuit) : Nat := (c.devices.values.map Device.driven).sum

/-- The number of inputs. -/
def inputCount (c : Circuit) : Nat := (c.devices.values.map fun d => d.inputs.size).sum

/-- The pins of a circuit are the pin words of a table. -/
structure Over (t : NameTable) (c : Circuit) : Prop where
  pins : c.pins = .ofNames t
  words : ∀ w ∈ Pin.words, w ∈ t.names

/-- What holds of every device, driver and monitor of a circuit. -/
structure Consistent (t : NameTable) (c : Circuit) : Prop where
  devices : ∀ {id d}, c.device? id = some d → d.MadeOver t id
  /-- A driver is an output of a device. -/
  drivers : ∀ {id d pin o}, c.device? id = some d → d.inputs.get? pin = some (some o) →
    ∃ e, c.device? o.device = some e ∧ e.hasOutput o.pin = true
  /-- A monitored output is an output of a device. -/
  monitors : ∀ {o}, c.monitors.contains o = true →
    ∃ e, c.device? o.device = some e ∧ e.hasOutput o.pin = true
  connections : c.connections = c.connected

variable {t t' : NameTable} {c c' : Circuit}

/-- An input has a driver or is listed as unconnected. -/
theorem connected_add_unconnected (c : Circuit) :
    c.connected + c.unconnected.length = c.inputCount := by
  unfold connected unconnected inputCount
  induction c.devices.values with
  | nil => rfl
  | cons d ds ih =>
    have hd := d.driven_add_undriven
    simp only [List.map_cons, List.sum_cons, List.flatMap_cons, List.length_append,
      List.length_map] at ih ⊢
    omega

theorem fullyConnected_iff (c : Circuit) :
    c.fullyConnected = true ↔ c.connected = c.inputCount := by
  unfold fullyConnected
  rw [List.isEmpty_iff, ← c.connected_add_unconnected, ← List.length_eq_zero_iff]
  omega

/-! ### What an operation does to the devices -/

theorem Step.output_kept (h : Step c c') {o : Output}
    (ho : ∃ e, c.device? o.device = some e ∧ e.hasOutput o.pin = true) :
    ∃ e, c'.device? o.device = some e ∧ e.hasOutput o.pin = true := by
  obtain ⟨e, he, hp⟩ := ho
  obtain ⟨e', he', hpart⟩ := h.partOf.devices he
  refine ⟨e', he', ?_⟩
  unfold Device.hasOutput at hp ⊢
  rw [hpart.outputs]
  exact hp

/-! ### Operations keep a circuit consistent -/

theorem Over.of_le (hle : t ≤ t') (h : c.Over t) : c.Over t' where
  pins := by rw [h.pins, Pins.ofNames_of_le hle h.words]
  words := fun w hw => NameTable.mem_of_le hle (h.words w hw)

/-- The outputs of a D-type are told by their words. -/
theorem Over.contains_dtypeOutputs (h : c.Over t) (pin : String) :
    c.pins.dtypeOutputs.contains (t.idOf pin) = decide (pin ∈ Pin.dtypeOutputWords) := by
  rw [h.pins]
  exact Vocabulary.contains_idOf fun w hw => h.words w (List.mem_append_right _ hw)

theorem Over.step (h : c.Over t) (hs : Step c c') : c'.Over t where
  pins := by rw [Grown.pins (Relation.ReflTransGen.single hs), h.pins]
  words := h.words

theorem Consistent.of_le (hle : t ≤ t') (h : c.Consistent t) : c.Consistent t' where
  devices := fun hd => (h.devices hd).of_le hle
  drivers := h.drivers
  monitors := h.monitors
  connections := h.connections

theorem consistent_empty (t : NameTable) (pins : Pins) : (empty pins).Consistent t where
  devices := fun hd => absurd hd (by simp [device?, empty])
  drivers := fun hd => absurd hd (by simp [device?, empty])
  monitors := fun hm => absurd hm (by simp [SortedMap.contains, empty])
  connections := rfl

/-- A new device is made as its kind calls for, and has no drivers. -/
theorem Consistent.declare (hover : c.Over t) (h : c.Consistent t) {id : NameId}
    {kind : DeviceKind} {qualifier : Option Qualifier} {setting : Setting}
    (fresh : c.device? id = none) (fits : kind.settingFor qualifier = some setting) :
    Consistent t
      { c with devices := c.devices.insert id (.make c.pins id kind setting) } := by
  have hkept {o : Output} := (Step.declare fresh fits).output_kept (o := o)
  refine ⟨fun hd => ?_, fun hd hp => ?_, fun hm => hkept (h.monitors hm), ?_⟩
  · rcases SortedMap.get?_insert_cases hd with ⟨rfl, rfl⟩ | hd
    · rw [hover.pins]
      exact Device.madeOver_make hover.words (DeviceKind.admits_of_settingFor fits) _
    · exact h.devices hd
  · rcases SortedMap.get?_insert_cases hd with ⟨rfl, rfl⟩ | hd
    · rw [Device.get?_inputs_make] at hp
      split at hp <;> exact absurd hp (by simp)
    · exact hkept (h.drivers hd hp)
  · show c.connections = ((c.devices.insert id _).values.map Device.driven).sum
    rw [((SortedMap.perm_values_insert fresh _).map _).sum_eq, List.map_cons, List.sum_cons,
      Device.driven_make, Nat.zero_add, h.connections]
    rfl

/-- The source of a connection is an output that was looked up, and drives one input more. -/
theorem Consistent.connect (h : c.Consistent t) {source : Output} {sink : Input}
    {driver driven : Device} (declared : c.device? source.device = some driver)
    (output : driver.hasOutput source.pin = true) (sunk : c.device? sink.device = some driven)
    (free : driven.inputs.get? sink.pin = some none) :
    Consistent t { c with
      devices := c.devices.modify sink.device fun d => d.drive sink.pin source
      connections := c.connections + 1 } := by
  have hkept {o : Output} := (Step.connect declared output sunk free).output_kept (o := o)
  refine ⟨fun hd => ?_, fun {id d pin o} hd hp => ?_, fun hm => hkept (h.monitors hm), ?_⟩
  · rcases SortedMap.get?_modify_cases hd with ⟨rfl, old, hold, rfl⟩ | hd
    · exact (h.devices hold).drive _ _
    · exact h.devices hd
  · rcases SortedMap.get?_modify_cases hd with ⟨rfl, old, hold, rfl⟩ | hd
    · obtain rfl := Option.some.inj (sunk.symm.trans hold)
      rcases Device.get?_inputs_drive hp with rfl | hp
      · exact hkept ⟨driver, declared, output⟩
      · exact hkept (h.drivers sunk hp)
    · exact hkept (h.drivers hd hp)
  · have hsum := SortedMap.sum_modify (m := c.devices) sunk
      (fun d => d.drive sink.pin source) Device.driven
    rw [Device.driven_drive free] at hsum
    have hc := h.connections
    unfold connected at hc
    show c.connections + 1 = ((c.devices.modify sink.device _).values.map Device.driven).sum
    omega

/-- A new monitor is an output that was looked up. -/
theorem Consistent.monitor (h : c.Consistent t) {target : Output} {device : Device}
    (declared : c.device? target.device = some device)
    (output : device.hasOutput target.pin = true) :
    Consistent t { c with monitors := c.monitors.add target } := by
  refine ⟨h.devices, h.drivers, fun {o} hm => ?_, h.connections⟩
  obtain ⟨u, hu⟩ := SortedMap.contains_iff.mp hm
  rcases SortedMap.get?_insert_cases hu with ⟨rfl, -⟩ | hu
  · exact ⟨device, declared, output⟩
  · exact h.monitors (SortedMap.contains_iff.mpr ⟨u, hu⟩)

/-- **An accepted operation keeps a circuit consistent.** -/
theorem Consistent.step (hover : c.Over t) (h : c.Consistent t) (hs : Step c c') :
    c'.Consistent t := by
  cases hs with
  | declare fresh fits => exact h.declare hover fresh fits
  | connect declared output sunk free => exact h.connect declared output sunk free
  | monitor declared output => exact h.monitor declared output

theorem Consistent.grown (hover : c.Over t) (h : c.Consistent t) (hg : c.Grown c') :
    c'.Over t ∧ c'.Consistent t := by
  induction hg with
  | refl => exact ⟨hover, h⟩
  | tail _ hs ih => exact ⟨ih.1.step hs, ih.2.step ih.1 hs⟩

end Circuit

/-! ## Sessions -/

namespace Session

/-- A session whose circuit is consistent over its names. -/
structure Consistent (s : Session) : Prop where
  known : s.circuit.Over s.names
  circuit : s.circuit.Consistent s.names

theorem start_eq (words : List String) :
    start words =
      let names := (NameTable.empty.internAll words).2
      ⟨(Pins.intern names).2, .empty (Pins.intern names).1⟩ := by
  unfold start
  generalize NameTable.empty.internAll words = p
  obtain ⟨ids, t⟩ := p
  dsimp only

theorem consistent_start (words : List String) : (start words).Consistent := by
  rw [start_eq]
  dsimp only
  generalize (NameTable.empty.internAll words).2 = t
  have hpins : (Pins.intern t).1 = .ofNames (Pins.intern t).2 := Pins.intern_fst NameTable.le_rfl
  have hwords := Pins.words_subset_intern t
  generalize Pins.intern t = q at hpins hwords ⊢
  exact ⟨⟨hpins, hwords⟩, Circuit.consistent_empty _ _⟩

theorem Consistent.grown {s s' : Session} (h : s.Consistent) (hg : s.Grown s') :
    s'.Consistent := by
  obtain ⟨hover, hc⟩ := h.circuit.grown h.known hg.circuit
  exact ⟨hover.of_le hg.names, hc.of_le hg.names⟩

theorem consistent_reachable (words : List String) (commands : List Command) :
    ((start words).runAll commands).Consistent :=
  (consistent_start words).grown (grown_runAll _ commands)

/-- **Every session that can be reached is consistent**: after any commands, devices, drivers and
monitors are as `Circuit.Consistent` says, every input is connected or listed as unconnected, and
the circuit is fully connected iff its connections are as many as its inputs. -/
theorem consistent_runAll (words : List String) (commands : List Command) :
    let s := (start words).runAll commands
    s.circuit.Consistent s.names ∧
      s.circuit.connections + s.circuit.unconnected.length = s.circuit.inputCount ∧
      (s.circuit.fullyConnected = true ↔ s.circuit.connections = s.circuit.inputCount) := by
  intro s
  have h : s.Consistent := consistent_reachable words commands
  refine ⟨h.circuit, ?_, ?_⟩
  · rw [h.circuit.connections]
    exact s.circuit.connected_add_unconnected
  · rw [h.circuit.connections]
    exact s.circuit.fullyConnected_iff

end Session

end Netlist
