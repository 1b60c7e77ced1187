import Mathlib.Data.List.Induction
import Netlist.Draft
import Netlist.Proofs.Blueprint
import Netlist.Proofs.Consistency

/-!
# Circuits of a blueprint

Over a name table, a blueprint calls for a circuit: one device for each part, with the drivers that
the wires give it, and one monitor for each probe. A circuit that depicts a blueprint answers every
operation as the blueprint does, and depicts the blueprint behind it.

## Results

* `Circuit.Depicts.declare`, `Circuit.Depicts.connect`, `Circuit.Depicts.monitor`: operations on a
  circuit are those on its blueprint.
* `Draft.Depicts.apply`: **a statement does to a draft what its clause does to the blueprint.**
-/

namespace Netlist

/-- An output over a table. -/
def OutputName.over (t : NameTable) (o : OutputName) : Output := ⟨t.idOf o.device, o.pin.map t.idOf⟩

namespace Blueprint

/-- The device of a part with drivers, over a table. -/
def deviceWith (t : NameTable) (x : Part) (ws : List Wire) : Device :=
  ws.foldl (fun d w => d.drive (t.idOf w.pin) (w.source.over t))
    (Device.make (.ofNames t) (t.idOf x.name) x.kind x.setting)

/-- The wires to the inputs of a device. -/
def wiresTo (B : Blueprint) (device : String) : List Wire := B.wires.filter (·.device = device)

/-- The output that drives an input: the source of the last wire to it. -/
def driverOf (ws : List Wire) (pin : String) : Option OutputName :=
  (ws.reverse.find? (·.pin = pin)).map Wire.source

/-- The output that drives an input of a device. -/
def driver? (B : Blueprint) (device pin : String) : Option OutputName :=
  driverOf (B.wiresTo device) pin

theorem isSome_driver?_iff (B : Blueprint) (device pin : String) :
    (B.driver? device pin).isSome = true ↔ B.Driven device pin := by
  unfold driver? driverOf wiresTo Driven
  simp [and_assoc]

/-- The device that a part stands for, over a table. -/
def deviceOver (t : NameTable) (B : Blueprint) (x : Part) : Device :=
  deviceWith t x (B.wiresTo x.name)

variable {t : NameTable} {B : Blueprint} {x : Part} {ws : List Wire}

theorem deviceWith_append_singleton (w : Wire) :
    deviceWith t x (ws ++ [w]) = (deviceWith t x ws).drive (t.idOf w.pin) (w.source.over t) :=
  List.foldl_concat ..

/-- Drivers change nothing but the inputs. -/
theorem deviceWith_frame (t : NameTable) (x : Part) (ws : List Wire) :
    (deviceWith t x ws).id = t.idOf x.name ∧ (deviceWith t x ws).kind = x.kind ∧
      (deviceWith t x ws).setting = x.setting ∧
      (deviceWith t x ws).outputs = Device.outputPins (.ofNames t) x.kind := by
  induction ws using List.reverseRecOn with
  | nil => exact ⟨rfl, rfl, rfl, rfl⟩
  | append_singleton ws w ih =>
    rw [deviceWith_append_singleton]
    exact ih

theorem kind_deviceOver (t : NameTable) (B : Blueprint) (x : Part) :
    (B.deviceOver t x).kind = x.kind := (deviceWith_frame t x _).2.1

theorem get?_make (h : x.kind.Admits x.setting) (hw : ∀ w ∈ Pin.words, w ∈ t.names)
    (pin : String) :
    (Device.make (.ofNames t) (t.idOf x.name) x.kind x.setting).inputs.get? (t.idOf pin) =
      if pin ∈ x.inputs then some none else none := by
  have hmem : t.idOf pin ∈ x.inputs.map t.idOf ↔ pin ∈ x.inputs := by
    constructor
    · intro hm
      obtain ⟨w, hwi, he⟩ := List.mem_map.mp hm
      rw [← (NameTable.idOf_inj (hw w (DeviceKind.mem_words_of_mem_inputWords h hwi))).mp he]
      exact hwi
    · exact List.mem_map_of_mem
  rw [Device.get?_inputs_make, DeviceKind.inputPins_ofNames h]
  exact if_congr hmem rfl rfl

/-- An input is there if the part has it, and its driver is the one that the wires give it. -/
theorem get?_deviceWith (h : x.kind.Admits x.setting) (hw : ∀ w ∈ Pin.words, w ∈ t.names)
    (hws : ∀ w ∈ ws, w.pin ∈ x.inputs) (pin : String) :
    (deviceWith t x ws).inputs.get? (t.idOf pin) =
      if pin ∈ x.inputs then some ((driverOf ws pin).map (·.over t)) else none := by
  induction ws using List.reverseRecOn with
  | nil => exact get?_make h hw pin
  | append_singleton ws w ih =>
    have hin : w.pin ∈ x.inputs := hws w (List.mem_append_right _ List.mem_cons_self)
    have hid : t.idOf pin = t.idOf w.pin ↔ pin = w.pin := by
      rw [eq_comm, NameTable.idOf_inj (hw _ (DeviceKind.mem_words_of_mem_inputWords h hin)),
        eq_comm]
    rw [deviceWith_append_singleton]
    unfold Device.drive driverOf
    rw [SortedMap.get?_modify, ih fun v hv => hws v (List.mem_append_left _ hv)]
    rw [List.reverse_append, List.reverse_singleton, List.singleton_append, List.find?_cons]
    by_cases hp : pin = w.pin
    · rw [if_pos (hid.mpr hp), hp]
      simp [hin]
    · rw [if_neg (mt hid.mp hp)]
      simp [Ne.symm hp, driverOf]

end Blueprint

/-! ## Circuits -/

/-- Two answers are the same refusal, or related results. -/
inductive SameAnswer {ε α β : Type} (R : α → β → Prop) : Except ε α → Except ε β → Prop
  | ok {a : α} {b : β} (related : R a b) : SameAnswer R (.ok a) (.ok b)
  | error {e : ε} : SameAnswer R (.error e) (.error e)

namespace Circuit

/-- A circuit depicts a blueprint over a table. -/
structure Depicts (t : NameTable) (c : Circuit) (B : Blueprint) : Prop where
  reserved : ∀ w ∈ Pin.words, w ∈ t.names
  pins : c.pins = .ofNames t
  coherent : B.Coherent
  known : ∀ x ∈ B.parts, x.name ∈ t.names
  devices : c.devices.entries.Perm (B.parts.map fun x => (t.idOf x.name, B.deviceOver t x))
  monitors : c.monitors.keys.Perm (B.probes.map (·.over t))

theorem depicts_empty {t : NameTable} (h : ∀ w ∈ Pin.words, w ∈ t.names) :
    (empty (.ofNames t)).Depicts t .empty where
  reserved := h
  pins := rfl
  coherent := Blueprint.coherent_empty
  known _ hx := absurd hx List.not_mem_nil
  devices := List.Perm.refl _
  monitors := List.Perm.refl _

namespace Depicts

variable {t : NameTable} {c c' : Circuit} {B B' : Blueprint}

theorem device?_eq_some_iff (h : c.Depicts t B) {id : NameId} {d : Device} :
    c.device? id = some d ↔ ∃ x ∈ B.parts, t.idOf x.name = id ∧ B.deviceOver t x = d := by
  unfold device?
  rw [← SortedMap.mem_entries_iff, h.devices.mem_iff, List.mem_map]
  simp only [Prod.mk.injEq]

/-- **Devices are found by their names.** -/
theorem device?_idOf (h : c.Depicts t B) (name : String) :
    c.device? (t.idOf name) = (B.part? name).map (B.deviceOver t) := by
  ext d
  rw [h.device?_eq_some_iff, Option.map_eq_some_iff]
  constructor
  · rintro ⟨x, hx, hid, hd⟩
    exact ⟨x, h.coherent.part?_eq_some_iff.mpr
      ⟨hx, (NameTable.idOf_inj (h.known x hx)).mp hid⟩, hd⟩
  · rintro ⟨x, hx, hd⟩
    obtain ⟨hm, rfl⟩ := Blueprint.mem_of_part? hx
    exact ⟨x, hm, rfl, hd⟩

theorem dtypeOutputs_contains (h : c.Depicts t B) (pin : String) :
    c.pins.dtypeOutputs.contains (t.idOf pin) = decide (pin ∈ Pin.dtypeOutputWords) :=
  Over.contains_dtypeOutputs ⟨h.pins, h.reserved⟩ pin

theorem hasOutput_deviceOver (h : c.Depicts t B) (x : Part) (pin : Option String) :
    (B.deviceOver t x).hasOutput (pin.map t.idOf) = true ↔ pin ∈ x.kind.outputWords := by
  unfold Device.hasOutput Blueprint.deviceOver
  rw [(Blueprint.deviceWith_frame t x _).2.2.2, DeviceKind.outputPins_ofNames, List.contains_iff_mem]
  constructor
  · intro hm
    obtain ⟨o, ho, he⟩ := List.mem_map.mp hm
    cases o with
    | none =>
      cases pin with
      | none => exact ho
      | some w => cases he
    | some v =>
      cases pin with
      | none => cases he
      | some w =>
        have hv := h.reserved v (DeviceKind.mem_words_of_mem_outputWords ho)
        rw [← (NameTable.idOf_inj hv).mp (Option.some.inj he)]
        exact ho
  · exact List.mem_map_of_mem

theorem pin_mem_inputs (h : c.Depicts t B) {x : Part} (hx : x ∈ B.parts) :
    ∀ w ∈ B.wiresTo x.name, w.pin ∈ x.inputs := by
  intro w hw
  obtain ⟨hw, hn⟩ := List.mem_filter.mp hw
  obtain ⟨y, hy, hyn, hpin⟩ := h.coherent.sinks w hw
  rw [h.coherent.eq_of_name hx hy (by rw [hyn]; exact (of_decide_eq_true hn).symm)]
  exact hpin

/-- The slot of an input pin. -/
theorem get?_deviceOver (h : c.Depicts t B) {x : Part} (hx : x ∈ B.parts) (pin : String) :
    (B.deviceOver t x).inputs.get? (t.idOf pin) =
      if pin ∈ x.inputs then some ((B.driver? x.name pin).map (·.over t)) else none :=
  Blueprint.get?_deviceWith (h.coherent.admitted x hx) h.reserved (h.pin_mem_inputs hx) pin

theorem hasInput_deviceOver (h : c.Depicts t B) {x : Part} (hx : x ∈ B.parts) (pin : String) :
    (B.deviceOver t x).hasInput (t.idOf pin) = true ↔ pin ∈ x.inputs := by
  unfold Device.hasInput SortedMap.contains
  rw [h.get?_deviceOver hx pin]
  by_cases hp : pin ∈ x.inputs
  · simp [hp]
  · simp [hp]

theorem over_inj (h : c.Depicts t B) {o p : OutputName} (ho : B.HasOutput o) :
    o.over t = p.over t ↔ o = p := by
  obtain ⟨x, hx, hn, hpin⟩ := ho
  constructor
  · intro he
    obtain ⟨device, pin⟩ := o
    obtain ⟨device', pin'⟩ := p
    obtain ⟨hd, hp⟩ := Output.mk.inj he
    have hknown : device ∈ t.names := by
      have hx := h.known x hx
      rw [hn] at hx
      exact hx
    obtain rfl : device = device' := (NameTable.idOf_inj hknown).mp hd
    cases pin with
    | none =>
      cases pin' with
      | none => rfl
      | some w => cases hp
    | some v =>
      cases pin' with
      | none => cases hp
      | some w =>
        have hv := h.reserved v (DeviceKind.mem_words_of_mem_outputWords hpin)
        rw [(NameTable.idOf_inj hv).mp (Option.some.inj hp)]
  · rintro rfl
    rfl

theorem monitors_contains_over (h : c.Depicts t B) (o : OutputName) :
    c.monitors.contains (o.over t) = true ↔ o ∈ B.probes := by
  rw [← SortedMap.mem_keys_iff, h.monitors.mem_iff, List.mem_map]
  constructor
  · rintro ⟨p, hp, he⟩
    rw [← (h.over_inj (h.coherent.outputs p hp)).mp he]
    exact hp
  · intro ho
    exact ⟨o, ho, rfl⟩

/-! ### Operations -/

theorem perm_parts_append (h : c.Depicts t B) {name : String} {kind : DeviceKind}
    {setting : Setting} (hn : ∀ x ∈ B.parts, x.name ≠ name) :
    let B' : Blueprint := { B with parts := B.parts ++ [⟨name, kind, setting⟩] }
    ((t.idOf name, Device.make c.pins (t.idOf name) kind setting) :: c.devices.entries).Perm
      (B'.parts.map fun x => (t.idOf x.name, B'.deviceOver t x)) := by
  intro B'
  have hfresh : B.wiresTo name = [] := by
    refine List.filter_eq_nil_iff.mpr fun w hw hd => ?_
    obtain ⟨x, hx, hxn, -⟩ := h.coherent.sinks w hw
    exact hn x hx (hxn.trans (of_decide_eq_true hd))
  have hnew : B'.deviceOver t ⟨name, kind, setting⟩ =
      Device.make c.pins (t.idOf name) kind setting := by
    show Blueprint.deviceWith t _ (B.wiresTo name) = _
    rw [hfresh, h.pins]
    rfl
  rw [List.map_append, List.map_singleton, hnew]
  exact (h.devices.cons _).trans (List.perm_append_singleton _ _).symm

/-- **A declaration is one of the blueprint.** -/
theorem declare (h : c.Depicts t B) {name : String} (hn : name ∈ t.names) (kind : DeviceKind)
    (qualifier : Option Qualifier) :
    SameAnswer (Depicts t) (c.declare (t.idOf name) kind qualifier)
      (B.declare name kind qualifier) := by
  cases hB : B.declare name kind qualifier with
  | ok B' =>
    obtain ⟨hfresh, setting, hs, he⟩ := Blueprint.declare_eq_ok_iff.mp hB
    have hnone : c.device? (t.idOf name) = none := by
      rw [h.device?_idOf, Blueprint.part?_eq_none_iff.mpr hfresh]
      rfl
    rw [declare_eq_ok_iff.mpr ⟨hnone, setting, hs, rfl⟩]
    refine .ok ⟨h.reserved, h.pins, h.coherent.declare hB, ?_, ?_, ?_⟩
    · rw [he]
      intro x hx
      rcases List.mem_append.mp hx with hx | hx
      · exact h.known x hx
      · rw [List.mem_singleton.mp hx]
        exact hn
    · rw [he]
      exact (SortedMap.perm_entries_insert hnone _).trans (h.perm_parts_append hfresh)
    · rw [he]
      exact h.monitors
  | error e =>
    have hdevice := h.device?_idOf name
    unfold Blueprint.declare at hB
    unfold Circuit.declare SortedMap.contains
    cases hp : B.part? name with
    | some x =>
      rw [hp] at hB hdevice
      rw [show c.devices.get? (t.idOf name) = _ from hdevice]
      cases hB
      exact .error
    | none =>
      rw [hp] at hB hdevice
      rw [show c.devices.get? (t.idOf name) = _ from hdevice]
      cases hs : kind.settingFor qualifier with
      | none =>
        rw [hs] at hB
        cases hB
        exact .error
      | some setting =>
        rw [hs] at hB
        cases hB

theorem perm_wires_append (h : c.Depicts t B) (w : Wire) :
    let B' : Blueprint := { B with wires := B.wires ++ [w] }
    (c.devices.modify (t.idOf w.device)
        fun d => d.drive (t.idOf w.pin) (w.source.over t)).entries.Perm
      (B'.parts.map fun x => (t.idOf x.name, B'.deviceOver t x)) := by
  intro B'
  have hdevice : ∀ x ∈ B.parts, B'.deviceOver t x =
      if t.idOf x.name = t.idOf w.device then
        (B.deviceOver t x).drive (t.idOf w.pin) (w.source.over t)
      else B.deviceOver t x := by
    intro x hx
    have hto : B'.wiresTo x.name =
        B.wiresTo x.name ++ if w.device = x.name then [w] else [] := by
      show (B.wires ++ [w]).filter _ = _
      rw [List.filter_append]
      congr 1
      by_cases hw : w.device = x.name
      · simp [hw]
      · simp [hw]
    unfold Blueprint.deviceOver
    have hid : t.idOf x.name = t.idOf w.device ↔ x.name = w.device :=
      NameTable.idOf_inj (h.known x hx)
    rw [hto]
    by_cases hw : w.device = x.name
    · rw [if_pos hw, if_pos (hid.mpr hw.symm), Blueprint.deviceWith_append_singleton]
    · rw [if_neg hw, if_neg (mt hid.mp (Ne.symm hw)), List.append_nil]
  show (c.devices.entries.map _).Perm (B.parts.map _)
  refine (h.devices.map _).trans (List.Perm.of_eq ?_)
  rw [List.map_map]
  refine List.map_congr_left fun x hx => ?_
  simp only [Function.comp_apply, hdevice x hx]

/-- **A connection is one of the blueprint.** -/
theorem connect (h : c.Depicts t B) (w : Wire) :
    SameAnswer (Depicts t) (c.connect (w.source.over t) ⟨t.idOf w.device, t.idOf w.pin⟩)
      (B.connect w) := by
  have hcoherent : ∀ B', B.connect w = .ok B' → B'.Coherent := fun B' => h.coherent.connect
  unfold Circuit.connect
  unfold Blueprint.connect at hcoherent ⊢
  rw [show (w.source.over t).device = t.idOf w.source.device from rfl, h.device?_idOf,
    h.device?_idOf]
  cases hs : B.part? w.source.device with
  | none => exact .error
  | some driver =>
    rw [hs] at hcoherent
    have hout := h.hasOutput_deviceOver driver w.source.pin
    simp only [Option.map_some] at hcoherent ⊢
    rw [show (w.source.over t).pin = w.source.pin.map t.idOf from rfl]
    by_cases ho : w.source.pin ∈ driver.kind.outputWords
    · rw [hout.mpr ho, if_neg (not_not.mpr ho)]
      rw [if_neg (not_not.mpr ho)] at hcoherent
      cases hd : B.part? w.device with
      | none => exact .error
      | some driven =>
        rw [hd] at hcoherent
        obtain ⟨hm, hname⟩ := Blueprint.mem_of_part? hd
        have hslot := h.get?_deviceOver hm w.pin
        have hdriven := B.isSome_driver?_iff w.device w.pin
        rw [hname] at hslot
        simp only [Option.map_some, hslot] at hcoherent ⊢
        by_cases hi : w.pin ∈ driven.inputs
        · rw [if_neg (not_not.mpr hi)] at hcoherent ⊢
          rw [if_pos hi]
          by_cases hw : B.Driven w.device w.pin
          · obtain ⟨o, ho⟩ := Option.isSome_iff_exists.mp (hdriven.mpr hw)
            rw [if_pos hw, ho]
            exact .error
          · rw [if_neg hw] at hcoherent ⊢
            rw [Option.not_isSome_iff_eq_none.mp (mt hdriven.mp hw)]
            exact .ok ⟨h.reserved, h.pins, hcoherent _ rfl, h.known, h.perm_wires_append w,
              h.monitors⟩
        · rw [if_neg hi, if_pos hi]
          exact .error
    · rw [if_pos ho, Bool.eq_false_iff.mpr (mt hout.mp ho)]
      exact .error

/-- **A monitor is one of the blueprint.** -/
theorem monitor (h : c.Depicts t B) (o : OutputName) :
    SameAnswer (Depicts t) (c.monitor (o.over t)) (B.monitor o) := by
  have hcoherent : ∀ B', B.monitor o = .ok B' → B'.Coherent := fun B' => h.coherent.monitor
  unfold Circuit.monitor
  unfold Blueprint.monitor at hcoherent ⊢
  rw [show (o.over t).device = t.idOf o.device from rfl, h.device?_idOf]
  cases hs : B.part? o.device with
  | none => exact .error
  | some x =>
    rw [hs] at hcoherent
    have hout := h.hasOutput_deviceOver x o.pin
    simp only [Option.map_some] at hcoherent ⊢
    rw [show (o.over t).pin = o.pin.map t.idOf from rfl]
    by_cases ho : o.pin ∈ x.kind.outputWords
    · rw [hout.mpr ho, if_neg (not_not.mpr ho)]
      rw [if_neg (not_not.mpr ho)] at hcoherent
      have hmon := h.monitors_contains_over o
      by_cases hm : o ∈ B.probes
      · rw [hmon.mpr hm, if_pos hm]
        exact .error
      · rw [if_neg hm] at hcoherent ⊢
        have hnew : c.monitors.contains (o.over t) = false :=
          Bool.eq_false_iff.mpr (mt hmon.mp hm)
        rw [hnew]
        refine .ok ⟨h.reserved, h.pins, hcoherent _ rfl, h.known, h.devices, ?_⟩
        have hperm := SortedMap.perm_entries_insert (SortedMap.contains_eq_false_iff.mp hnew) ()
        rw [List.map_append, List.map_singleton]
        exact ((hperm.map Prod.fst).trans (h.monitors.cons _)).trans
          (List.perm_append_singleton _ _).symm
    · rw [if_pos ho, Bool.eq_false_iff.mpr (mt hout.mp ho)]
      exact .error

end Depicts

end Circuit

/-! ## Statements -/

/-- The output that is mentioned, by its names. -/
def OutputMention.outputName (m : OutputMention) : OutputName :=
  ⟨m.device.text, m.pin.map Word.text⟩

/-- The wire of a connection. -/
def Connection.wire (s : Connection) : Wire := ⟨s.source.outputName, s.device.text, s.pin.text⟩

/-- Carries out a statement on a blueprint. -/
def Blueprint.apply (B : Blueprint) : Statement → Except Fault Blueprint
  | .declaration s =>
    (B.declare s.name.text s.kind (s.qualifier.map Prod.fst)).mapError (Draft.declarationFault s)
  | .connection s => (B.connect s.wire).mapError (Draft.connectionFault s)
  | .monitor m => (B.monitor m.outputName).mapError (Draft.monitorFault m)

/-- A word whose identifier is its place in a table. -/
structure Word.Over (t : NameTable) (w : Word) : Prop where
  known : w.text ∈ t.names
  id : w.id = t.idOf w.text

/-- A mention of an output whose words are of a table. -/
structure OutputMention.Over (t : NameTable) (m : OutputMention) : Prop where
  device : m.device.Over t
  pin : ∀ w ∈ m.pin, w.Over t

/-- A statement whose words are of a table. -/
inductive Statement.Over (t : NameTable) : Statement → Prop
  | declaration {s : Declaration} (name : s.name.Over t) : Over t (.declaration s)
  | connection {s : Connection} (source : s.source.Over t) (device : s.device.Over t)
      (pin : s.pin.Over t) : Over t (.connection s)
  | monitor {m : OutputMention} (output : m.Over t) : Over t (.monitor m)

theorem OutputMention.Over.output {t : NameTable} {m : OutputMention} (h : m.Over t) :
    m.output = m.outputName.over t := by
  obtain ⟨device, pin, position⟩ := m
  unfold OutputMention.output OutputMention.outputName OutputName.over
  rw [h.device.id]
  cases pin with
  | none => rfl
  | some w => rw [Option.map_some, Option.map_some, Option.map_some, (h.pin w rfl).id]

namespace Draft

/-- A draft depicts a blueprint: its circuit does, and the parts that nothing uses are unused. -/
structure Depicts (t : NameTable) (d : Draft) (B : Blueprint) : Prop where
  circuit : d.circuit.Depicts t B
  unused : ∀ id, d.unused.contains id = true ↔
    ∃ x ∈ B.parts, t.idOf x.name = id ∧ ¬B.Uses x.name

theorem depicts_start {t : NameTable} (h : ∀ w ∈ Pin.words, w ∈ t.names) :
    (start (.empty (.ofNames t))).Depicts t .empty where
  circuit := Circuit.depicts_empty h
  unused id := by
    constructor
    · exact fun hc => absurd hc Bool.false_ne_true
    · rintro ⟨x, hx, -⟩
      exact absurd hx List.not_mem_nil

variable {t : NameTable} {d : Draft} {B B' : Blueprint}

/-- A new part is unused. -/
theorem Depicts.unused_declare (h : d.Depicts t B) {name : String} {kind : DeviceKind}
    {qualifier : Option Qualifier} (hB : B.declare name kind qualifier = .ok B') (id : NameId) :
    (d.unused.add (t.idOf name)).contains id = true ↔
      ∃ x ∈ B'.parts, t.idOf x.name = id ∧ ¬B'.Uses x.name := by
  obtain ⟨hfresh, setting, -, rfl⟩ := Blueprint.declare_eq_ok_iff.mp hB
  have hnew : ¬B.Uses name := by
    rintro (⟨w, hw, hd⟩ | ⟨o, ho, hd⟩)
    · obtain ⟨x, hx, hxn, -⟩ := h.circuit.coherent.sources w hw
      exact hfresh x hx (hxn.trans hd)
    · obtain ⟨x, hx, hxn, -⟩ := h.circuit.coherent.outputs o ho
      exact hfresh x hx (hxn.trans hd)
  rw [SortedSet.contains_add, h.unused]
  constructor
  · rintro (rfl | ⟨x, hx, hid, hu⟩)
    · exact ⟨⟨name, kind, setting⟩, List.mem_append_right _ List.mem_cons_self, rfl, hnew⟩
    · exact ⟨x, List.mem_append_left _ hx, hid, hu⟩
  · rintro ⟨x, hx, hid, hu⟩
    rcases List.mem_append.mp hx with hx | hx
    · exact .inr ⟨x, hx, hid, hu⟩
    · rw [List.mem_singleton.mp hx] at hid
      exact .inl hid.symm

/-- The devices of a blueprint that are used by more wires and probes. -/
theorem uses_append (B : Blueprint) (ws : List Wire) (os : List OutputName) (y : String) :
    Blueprint.Uses { B with wires := B.wires ++ ws, probes := B.probes ++ os } y ↔
      B.Uses y ∨ y ∈ ws.map (·.source.device) ++ os.map (·.device) := by
  unfold Blueprint.Uses
  simp only [List.mem_append, List.mem_map, or_and_right, exists_or]
  exact or_or_or_comm

/-- A device that one more wire or probe uses is unused no more. -/
theorem Depicts.unused_append (h : d.Depicts t B) (ws : List Wire) (os : List OutputName)
    (hB : B' = { B with wires := B.wires ++ ws, probes := B.probes ++ os }) {name : String}
    (hname : ws.map (·.source.device) ++ os.map (·.device) = [name]) (id : NameId) :
    (d.unused.remove (t.idOf name)).contains id = true ↔
      ∃ x ∈ B'.parts, t.idOf x.name = id ∧ ¬B'.Uses x.name := by
  subst hB
  simp only [uses_append, hname, List.mem_singleton, not_or]
  rw [SortedSet.contains_remove, h.unused]
  constructor
  · rintro ⟨hne, x, hx, rfl, hu⟩
    exact ⟨x, hx, rfl, hu, fun he => hne (by rw [he])⟩
  · rintro ⟨x, hx, rfl, hu, hne⟩
    exact ⟨fun he => hne ((NameTable.idOf_inj (h.circuit.known x hx)).mp he), x, hx, rfl, hu⟩

/-- **A statement does to a draft what it does to the blueprint.** -/
theorem Depicts.apply (h : d.Depicts t B) {st : Statement} (hst : st.Over t) :
    SameAnswer (fun d' B' => d'.Depicts t B' ∧ d'.sections = d.sections) (d.apply st)
      (B.apply st) := by
  unfold Draft.apply Blueprint.apply
  cases hst with
  | @declaration s hn =>
    simp only [hn.id]
    have hsame := h.circuit.declare hn.known s.kind (s.qualifier.map Prod.fst)
    have hunused := fun B'
        (hB : B.declare s.name.text s.kind (s.qualifier.map Prod.fst) = .ok B') =>
      h.unused_declare hB
    generalize d.circuit.declare _ _ _ = x at hsame ⊢
    generalize B.declare _ _ _ = y at hsame hunused ⊢
    cases hsame with
    | ok hc => exact .ok ⟨⟨hc, hunused _ rfl⟩, rfl⟩
    | error => exact .error
  | @connection s hsource hdevice hpin =>
    simp only [hsource.output, Connection.sink, hdevice.id, hpin.id, hsource.device.id]
    have hsame : SameAnswer (Circuit.Depicts t)
        (d.circuit.connect (s.source.outputName.over t) ⟨t.idOf s.device.text, t.idOf s.pin.text⟩)
        (B.connect s.wire) := h.circuit.connect s.wire
    have hunused (B' : Blueprint) (hB : B.connect s.wire = .ok B') := by
      obtain ⟨-, -, -, he⟩ := h.circuit.coherent.connect_eq_ok_iff.mp hB
      rw [← List.append_nil B.probes] at he
      exact h.unused_append [s.wire] [] he rfl
    generalize d.circuit.connect _ _ = x at hsame ⊢
    generalize B.connect s.wire = y at hsame hunused ⊢
    cases hsame with
    | ok hc => exact .ok ⟨⟨hc, hunused _ rfl⟩, rfl⟩
    | error => exact .error
  | @monitor m hm =>
    simp only [hm.output, hm.device.id]
    have hsame := h.circuit.monitor m.outputName
    have hunused (B' : Blueprint) (hB : B.monitor m.outputName = .ok B') := by
      obtain ⟨-, -, he⟩ := h.circuit.coherent.monitor_eq_ok_iff.mp hB
      rw [← List.append_nil B.wires] at he
      exact h.unused_append [] [m.outputName] he rfl
    generalize d.circuit.monitor _ = x at hsame ⊢
    generalize B.monitor m.outputName = y at hsame hunused ⊢
    cases hsame with
    | ok hc => exact .ok ⟨⟨hc, hunused _ rfl⟩, rfl⟩
    | error => exact .error

end Draft

end Netlist
