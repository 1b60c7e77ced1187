import Netlist.Proofs.Depiction

/-!
# A circuit read by names

Identifiers are read as the names that a table gives them. What a circuit shows then is decided by
the blueprint that it depicts, up to the order in which things are listed: its devices, the driver
of each input, its monitors, and what is missing at the end of a definition.

## Results

* `Circuit.Depicts.perm_deviceNames`, `Circuit.Depicts.perm_driverNames`,
  `Circuit.Depicts.perm_monitorNames`: a circuit shows what its blueprint says.
* `Circuit.Depicts.perm_unconnectedNames`, `Draft.Depicts.perm_unusedNames`: so do the lists of what
  is missing.
-/

namespace Netlist

open Draft (nameText)

/-- An output, read by names. -/
def Output.named (t : NameTable) (o : Output) : OutputName :=
  ⟨nameText t o.device, o.pin.map (nameText t)⟩

/-- What a device is, apart from its inputs, read by names. -/
structure DeviceView where
  name : String
  kind : DeviceKind
  setting : Setting
  outputs : List (Option String)
deriving DecidableEq, Repr

namespace Circuit

/-- The devices, read by names. -/
def deviceNames (t : NameTable) (c : Circuit) : List DeviceView :=
  c.devices.values.map fun d =>
    ⟨nameText t d.id, d.kind, d.setting, d.outputs.map (Option.map (nameText t))⟩

/-- The inputs with the outputs that drive them, read by names. -/
def driverNames (t : NameTable) (c : Circuit) : List ((String × String) × Option OutputName) :=
  c.devices.values.flatMap fun d =>
    d.inputs.entries.map fun e => ((nameText t d.id, nameText t e.1), e.2.map (Output.named t))

/-- The monitored outputs, read by names. -/
def monitorNames (t : NameTable) (c : Circuit) : List OutputName :=
  c.monitors.keys.map (Output.named t)

/-- The inputs without a driver, read by names. -/
def unconnectedNames (t : NameTable) (c : Circuit) : List (String × String) :=
  c.unconnected.map fun i => (nameText t i.device, nameText t i.pin)

end Circuit

/-- The devices that nothing uses, read by names. -/
def Draft.unusedNames (t : NameTable) (d : Draft) : List String := d.unused.keys.map (nameText t)

namespace Blueprint

/-- What the parts are. -/
def views (B : Blueprint) : List DeviceView :=
  B.parts.map fun x => ⟨x.name, x.kind, x.setting, x.kind.outputWords⟩

/-- The inputs with their drivers. -/
def drivers (B : Blueprint) : List ((String × String) × Option OutputName) :=
  B.parts.flatMap fun x => x.inputs.map fun pin => ((x.name, pin), B.driver? x.name pin)

/-- The inputs without a driver. -/
def unconnected (B : Blueprint) : List (String × String) :=
  B.parts.flatMap fun x =>
    (x.inputs.filter fun pin => ¬B.Driven x.name pin).map fun pin => (x.name, pin)

instance (B : Blueprint) (device : String) : Decidable (B.Uses device) := by
  unfold Uses
  infer_instance

/-- The names of the parts that nothing uses. -/
def unused (B : Blueprint) : List String :=
  (B.parts.filter fun x => ¬B.Uses x.name).map Part.name

end Blueprint

theorem nameText_idOf {t : NameTable} {w : String} (h : w ∈ t.names) :
    nameText t (t.idOf w) = w := by
  unfold nameText
  rw [NameTable.text?_idOf h]
  rfl

namespace Circuit.Depicts

variable {t : NameTable} {c : Circuit} {B : Blueprint}

theorem known_of_mem_inputs (h : c.Depicts t B) {x : Part} (hx : x ∈ B.parts) {pin : String}
    (hp : pin ∈ x.inputs) : pin ∈ t.names :=
  h.reserved pin (DeviceKind.mem_words_of_mem_inputWords (h.coherent.admitted x hx) hp)

theorem named_over (h : c.Depicts t B) {o : OutputName} (ho : B.HasOutput o) :
    (o.over t).named t = o := by
  obtain ⟨x, hx, hn, hp⟩ := ho
  obtain ⟨device, pin⟩ := o
  unfold Output.named OutputName.over
  have hd : device ∈ t.names := by
    have hk := h.known x hx
    rw [hn] at hk
    exact hk
  rw [nameText_idOf hd]
  cases pin with
  | none => rfl
  | some w =>
    have hw := h.reserved w (DeviceKind.mem_words_of_mem_outputWords hp)
    simp only [Option.map_some, nameText_idOf hw]

theorem map_nameText_outputs (h : c.Depicts t B) (kind : DeviceKind) :
    (Device.outputPins (.ofNames t) kind).map (Option.map (nameText t)) = kind.outputWords := by
  rw [DeviceKind.outputPins_ofNames, List.map_map]
  conv_rhs => rw [← List.map_id kind.outputWords]
  refine List.map_congr_left fun o ho => ?_
  cases o with
  | none => rfl
  | some w =>
    have hw := h.reserved w (DeviceKind.mem_words_of_mem_outputWords ho)
    simp only [Function.comp_apply, Option.map_some, nameText_idOf hw, id_eq]

theorem perm_values (h : c.Depicts t B) :
    c.devices.values.Perm (B.parts.map (B.deviceOver t)) := by
  have hperm := h.devices.map Prod.snd
  rw [List.map_map] at hperm
  exact hperm

theorem perm_deviceNames (h : c.Depicts t B) : (c.deviceNames t).Perm B.views := by
  unfold deviceNames Blueprint.views
  refine (h.perm_values.map _).trans (List.Perm.of_eq ?_)
  rw [List.map_map]
  refine List.map_congr_left fun x hx => ?_
  obtain ⟨hid, hkind, hsetting, houtputs⟩ := Blueprint.deviceWith_frame t x (B.wiresTo x.name)
  simp only [Function.comp_apply, Blueprint.deviceOver, hid, hkind, hsetting, houtputs,
    nameText_idOf (h.known x hx), h.map_nameText_outputs]

theorem mem_driver (h : c.Depicts t B) {device pin : String} {o : OutputName}
    (hd : B.driver? device pin = some o) : B.HasOutput o := by
  unfold Blueprint.driver? Blueprint.driverOf at hd
  obtain ⟨w, hw, rfl⟩ := Option.map_eq_some_iff.mp hd
  have hm := List.mem_of_find?_eq_some hw
  rw [List.mem_reverse] at hm
  exact h.coherent.sources w (List.mem_filter.mp hm).1

theorem keys_deviceWith (t : NameTable) (x : Part) (ws : List Wire) :
    (Blueprint.deviceWith t x ws).inputs.keys =
      (Device.make (.ofNames t) (t.idOf x.name) x.kind x.setting).inputs.keys := by
  induction ws using List.reverseRecOn with
  | nil => rfl
  | append_singleton ws w ih =>
    rw [Blueprint.deviceWith_append_singleton, ← ih]
    exact SortedMap.keys_modify _ _ _

theorem mem_inputs_of_get? (h : c.Depicts t B) {x : Part} (hx : x ∈ B.parts) {id : NameId}
    {slot : Option Output} (hs : (B.deviceOver t x).inputs.get? id = some slot) :
    ∃ pin ∈ x.inputs, t.idOf pin = id := by
  have hm : id ∈ (B.deviceOver t x).inputs.keys :=
    SortedMap.mem_keys_iff.mpr (SortedMap.contains_iff.mpr ⟨slot, hs⟩)
  unfold Blueprint.deviceOver at hm
  rw [keys_deviceWith, SortedMap.mem_keys_iff, SortedMap.contains_iff] at hm
  obtain ⟨v, hv⟩ := hm
  rw [Device.get?_inputs_make, DeviceKind.inputPins_ofNames (h.coherent.admitted x hx)] at hv
  split at hv
  · rename_i hid
    exact List.mem_map.mp hid
  · cases hv

/-- The slots of a device, by the words of its input pins. -/
theorem perm_entries_deviceOver (h : c.Depicts t B) {x : Part} (hx : x ∈ B.parts) :
    (B.deviceOver t x).inputs.entries.Perm
      (x.inputs.map fun pin => (t.idOf pin, (B.driver? x.name pin).map (·.over t))) := by
  have hleft : (B.deviceOver t x).inputs.entries.Nodup :=
    List.Nodup.of_map Prod.fst (SortedMap.nodup_keys _)
  have hinputs : x.inputs.Nodup := DeviceKind.nodup_inputWords (h.coherent.admitted x hx)
  have hright : (x.inputs.map fun pin =>
      (t.idOf pin, (B.driver? x.name pin).map (·.over t))).Nodup := by
    refine List.Nodup.map_on (fun v hv w _ he => ?_) hinputs
    exact (NameTable.idOf_inj (h.known_of_mem_inputs hx hv)).mp (Prod.mk.inj he).1
  refine (List.perm_ext_iff_of_nodup hleft hright).mpr fun ⟨id, slot⟩ => ?_
  rw [SortedMap.mem_entries_iff, List.mem_map]
  constructor
  · intro hs
    obtain ⟨pin, hp, rfl⟩ := h.mem_inputs_of_get? hx hs
    rw [h.get?_deviceOver hx, if_pos hp] at hs
    exact ⟨pin, hp, by rw [Option.some.inj hs]⟩
  · rintro ⟨pin, hp, he⟩
    obtain ⟨rfl, rfl⟩ := Prod.mk.inj he
    rw [h.get?_deviceOver hx, if_pos hp]

/-- A list that is read off every device is read off every part. -/
theorem perm_flatMap_values {α : Type} (h : c.Depicts t B) {f : Device → List α}
    {g : Part → List α} (hfg : ∀ x ∈ B.parts, (f (B.deviceOver t x)).Perm (g x)) :
    (c.devices.values.flatMap f).Perm (B.parts.flatMap g) := by
  refine (h.perm_values.flatMap_right f).trans ?_
  rw [List.flatMap_map]
  exact List.Perm.flatMap_left B.parts hfg

theorem perm_driverNames (h : c.Depicts t B) : (c.driverNames t).Perm B.drivers := by
  refine h.perm_flatMap_values fun x hx => ?_
  refine ((h.perm_entries_deviceOver hx).map _).trans (List.Perm.of_eq ?_)
  rw [List.map_map]
  refine List.map_congr_left fun pin hp => ?_
  have hid : (B.deviceOver t x).id = t.idOf x.name := (Blueprint.deviceWith_frame t x _).1
  simp only [Function.comp_apply, hid, nameText_idOf (h.known x hx),
    nameText_idOf (h.known_of_mem_inputs hx hp)]
  cases hd : B.driver? x.name pin with
  | none => rfl
  | some o => simp only [Option.map_some, h.named_over (h.mem_driver hd)]

theorem perm_monitorNames (h : c.Depicts t B) : (c.monitorNames t).Perm B.probes := by
  unfold monitorNames
  refine (h.monitors.map _).trans (List.Perm.of_eq ?_)
  rw [List.map_map]
  conv_rhs => rw [← List.map_id B.probes]
  exact List.map_congr_left fun o ho => h.named_over (h.coherent.outputs o ho)

theorem perm_undriven (h : c.Depicts t B) {x : Part} (hx : x ∈ B.parts) :
    (B.deviceOver t x).undriven.Perm
      ((x.inputs.filter fun pin => ¬B.Driven x.name pin).map t.idOf) := by
  unfold Device.undriven
  refine ((h.perm_entries_deviceOver hx).filterMap _).trans (List.Perm.of_eq ?_)
  induction x.inputs with
  | nil => rfl
  | cons pin pins ih =>
    have hdriven := B.isSome_driver?_iff x.name pin
    rw [List.map_cons, List.filterMap_cons, ih]
    by_cases hd : B.Driven x.name pin
    · obtain ⟨o, ho⟩ := Option.isSome_iff_exists.mp (hdriven.mpr hd)
      rw [List.filter_cons_of_neg (by simp [hd]), ho]
      rfl
    · have hnone := Option.not_isSome_iff_eq_none.mp (mt hdriven.mp hd)
      rw [List.filter_cons_of_pos (by simp [hd]), hnone]
      rfl

theorem perm_unconnectedNames (h : c.Depicts t B) :
    (c.unconnectedNames t).Perm B.unconnected := by
  unfold unconnectedNames unconnected
  rw [List.map_flatMap]
  refine h.perm_flatMap_values fun x hx => ?_
  have hid : (B.deviceOver t x).id = t.idOf x.name := (Blueprint.deviceWith_frame t x _).1
  rw [List.map_map]
  refine ((h.perm_undriven hx).map _).trans (List.Perm.of_eq ?_)
  rw [List.map_map]
  refine List.map_congr_left fun pin hp => ?_
  have hin := (List.mem_filter.mp hp).1
  simp only [Function.comp_apply, hid, nameText_idOf (h.known x hx),
    nameText_idOf (h.known_of_mem_inputs hx hin)]

end Circuit.Depicts

theorem Draft.Depicts.perm_unusedNames {t : NameTable} {d : Draft} {B : Blueprint}
    (h : d.Depicts t B) : (d.unusedNames t).Perm B.unused := by
  have hinj : ∀ x ∈ B.parts, ∀ y ∈ B.parts, t.idOf x.name = t.idOf y.name → x = y :=
    fun x hx y hy he => h.circuit.coherent.eq_of_name hx hy
      ((NameTable.idOf_inj (h.circuit.known x hx)).mp he)
  have hparts : B.parts.Nodup := List.Nodup.of_map Part.name h.circuit.coherent.names
  have hkeys : d.unused.keys.Perm
      ((B.parts.filter fun x => ¬B.Uses x.name).map fun x => t.idOf x.name) := by
    refine (List.perm_ext_iff_of_nodup (SortedMap.nodup_keys _) ?_).mpr fun id => ?_
    · refine List.Nodup.map_on (fun x hx y hy => ?_) (hparts.filter _)
      exact hinj x (List.mem_filter.mp hx).1 y (List.mem_filter.mp hy).1
    · rw [SortedMap.mem_keys_iff, h.unused]
      simp only [List.mem_map, List.mem_filter, decide_eq_true_eq]
      refine exists_congr fun x => ?_
      rw [and_right_comm, and_assoc]
  unfold unusedNames Blueprint.unused
  refine (hkeys.map _).trans (List.Perm.of_eq ?_)
  rw [List.map_map]
  refine List.map_congr_left fun x hx => ?_
  exact nameText_idOf (h.circuit.known x (List.mem_filter.mp hx).1)

end Netlist
