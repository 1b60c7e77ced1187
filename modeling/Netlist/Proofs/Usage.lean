import Netlist.Proofs.Consistency
import Netlist.Proofs.Passage

/-!
# Which devices are used

A draft keeps the devices declared by its statements that nothing uses so far: declarations add
to them, connections and monitors take from them. This comes to the same as asking the circuit: a
device is kept there just if it was declared since the draft was started, and no driver and no
monitor names it. A refused statement changes neither side.

## Results

* `Draft.Tracks.take`: a segment keeps the two in step.
* `Reading.Passes.tracks`: **along a whole reading, the unused devices are those that the circuit
  shows no use of.**
-/

namespace Netlist

namespace Circuit

/-- The output drives an input. -/
def Drives (c : Circuit) (o : Output) : Prop :=
  ∃ id d pin, c.device? id = some d ∧ d.inputs.get? pin = some (some o)

/-- An output of the device drives an input or is monitored. -/
def Uses (c : Circuit) (id : NameId) : Prop :=
  ∃ o, o.device = id ∧ (c.Drives o ∨ c.monitors.contains o = true)

/-- The device was declared since `c₀`, and nothing uses it. -/
def UnusedSince (c₀ c : Circuit) (id : NameId) : Prop :=
  c₀.device? id = none ∧ (∃ d, c.device? id = some d) ∧ ¬c.Uses id

variable {c c' : Circuit} {t : NameTable}

/-! ## Uses and operations -/

/-- What is used in a consistent circuit is declared. -/
theorem Consistent.declared (h : c.Consistent t) {id : NameId} (hu : c.Uses id) :
    ∃ d, c.device? id = some d := by
  obtain ⟨o, rfl, ⟨i, d, pin, hd, hp⟩ | hm⟩ := hu
  · obtain ⟨e, he, -⟩ := h.drivers hd hp
    exact ⟨e, he⟩
  · obtain ⟨e, he, -⟩ := h.monitors hm
    exact ⟨e, he⟩

/-- A new device has no drivers. -/
theorem drives_declare {id : NameId} (hid : c.device? id = none) (kind : DeviceKind)
    (setting : Setting) (o : Output) :
    Drives { c with devices := c.devices.insert id (.make c.pins id kind setting) } o ↔
      c.Drives o := by
  unfold Drives device?
  simp only [SortedMap.get?_insert]
  constructor
  · rintro ⟨i, d, pin, hd, hp⟩
    split at hd
    · obtain rfl := Option.some.inj hd
      rw [Device.get?_inputs_make] at hp
      split at hp <;> exact absurd hp (by simp)
    · exact ⟨i, d, pin, hd, hp⟩
  · rintro ⟨i, d, pin, hd, hp⟩
    have hne : i ≠ id := by
      rintro rfl
      exact absurd (hid.symm.trans hd) (by simp)
    exact ⟨i, d, pin, by rw [if_neg hne, hd], hp⟩

theorem uses_declare {id : NameId} (hid : c.device? id = none) (kind : DeviceKind)
    (setting : Setting) (j : NameId) :
    Uses { c with devices := c.devices.insert id (.make c.pins id kind setting) } j ↔
      c.Uses j := by
  unfold Uses
  simp only [drives_declare hid]

/-- A connection adds its source to the drivers. -/
theorem drives_connect {source : Output} {sink : Input} {driven : Device}
    (sunk : c.device? sink.device = some driven)
    (free : driven.inputs.get? sink.pin = some none) (o : Output) :
    Drives { c with
        devices := c.devices.modify sink.device fun d => d.drive sink.pin source
        connections := c.connections + 1 } o ↔ c.Drives o ∨ o = source := by
  unfold Drives device?
  simp only [SortedMap.get?_modify]
  constructor
  · rintro ⟨i, d, pin, hd, hp⟩
    split at hd
    · rename_i hi
      rw [hi, show c.devices.get? sink.device = some driven from sunk] at hd
      obtain rfl := Option.some.inj hd
      rcases Device.get?_inputs_drive hp with rfl | hp
      · exact .inr rfl
      · exact .inl ⟨_, _, _, sunk, hp⟩
    · exact .inl ⟨i, d, pin, hd, hp⟩
  · rintro (⟨i, d, pin, hd, hp⟩ | rfl)
    · by_cases hi : i = sink.device
      · subst hi
        obtain rfl := Option.some.inj (sunk.symm.trans hd)
        exact ⟨sink.device, _, pin, by rw [if_pos rfl, hd]; rfl,
          (Device.partOf_drive free source).drivers hp⟩
      · exact ⟨i, d, pin, by rw [if_neg hi, hd], hp⟩
    · refine ⟨sink.device, driven.drive sink.pin o, sink.pin, ?_, ?_⟩
      · rw [if_pos rfl, show c.devices.get? sink.device = some driven from sunk]
        rfl
      · show (driven.inputs.modify sink.pin fun _ => some o).get? sink.pin = _
        rw [SortedMap.get?_modify, if_pos rfl, free]
        rfl

/-- A connection uses the device of its source. -/
theorem uses_connect {source : Output} {sink : Input} {driven : Device}
    (sunk : c.device? sink.device = some driven)
    (free : driven.inputs.get? sink.pin = some none) (j : NameId) :
    Uses { c with
        devices := c.devices.modify sink.device fun d => d.drive sink.pin source
        connections := c.connections + 1 } j ↔ c.Uses j ∨ j = source.device := by
  unfold Uses
  simp only [drives_connect sunk free]
  constructor
  · rintro ⟨o, rfl, (hd | rfl) | hm⟩
    · exact .inl ⟨o, rfl, .inl hd⟩
    · exact .inr rfl
    · exact .inl ⟨o, rfl, .inr hm⟩
  · rintro (⟨o, ho, hd | hm⟩ | rfl)
    · exact ⟨o, ho, .inl (.inl hd)⟩
    · exact ⟨o, ho, .inr hm⟩
    · exact ⟨source, rfl, .inl (.inr rfl)⟩

/-- A monitor uses the device of its output. -/
theorem uses_monitor (target : Output) (j : NameId) :
    Uses { c with monitors := c.monitors.add target } j ↔ c.Uses j ∨ j = target.device := by
  unfold Uses
  simp only [SortedSet.contains_add]
  constructor
  · rintro ⟨o, rfl, hd | rfl | hm⟩
    · exact .inl ⟨o, rfl, .inl hd⟩
    · exact .inr rfl
    · exact .inl ⟨o, rfl, .inr hm⟩
  · rintro (⟨o, ho, hd | hm⟩ | rfl)
    · exact ⟨o, ho, .inl hd⟩
    · exact ⟨o, ho, .inr (.inr hm)⟩
    · exact ⟨target, rfl, .inr (.inl rfl)⟩

/-! ## Unused devices and operations -/

variable {c₀ : Circuit}

/-- A new device is unused. -/
theorem Consistent.unusedSince_declare (h : c.Consistent t) (hc : c₀.PartOf c) {id : NameId}
    (hid : c.device? id = none) (kind : DeviceKind) (setting : Setting) (j : NameId) :
    UnusedSince c₀ { c with devices := c.devices.insert id (.make c.pins id kind setting) } j ↔
      j = id ∨ UnusedSince c₀ c j := by
  unfold UnusedSince
  rw [uses_declare hid]
  by_cases hj : j = id
  · subst hj
    have hnew : c₀.device? j = none := by
      by_contra hold
      obtain ⟨d, hd⟩ := Option.ne_none_iff_exists'.mp hold
      obtain ⟨d', hd', -⟩ := hc.devices hd
      exact absurd (hid.symm.trans hd') (by simp)
    have hunused : ¬c.Uses j := fun hu => by
      obtain ⟨d, hd⟩ := h.declared hu
      exact absurd (hid.symm.trans hd) (by simp)
    have hdeclared : (c.devices.insert j (.make c.pins j kind setting)).get? j =
        some (.make c.pins j kind setting) := by
      rw [SortedMap.get?_insert, if_pos rfl]
    exact iff_of_true ⟨hnew, ⟨_, hdeclared⟩, hunused⟩ (.inl rfl)
  · have hdevice : device?
        { c with devices := c.devices.insert id (.make c.pins id kind setting) } j =
          c.device? j := by
      show (c.devices.insert id _).get? j = _
      rw [SortedMap.get?_insert, if_neg hj]
      rfl
    rw [hdevice, or_iff_right hj]

/-- What is used is unused no more. -/
theorem unusedSince_use {id : NameId}
    (huses : ∀ j, c'.Uses j ↔ c.Uses j ∨ j = id)
    (hdevices : ∀ j, c'.devices.contains j = c.devices.contains j) (j : NameId) :
    UnusedSince c₀ c' j ↔ j ≠ id ∧ UnusedSince c₀ c j := by
  have hdeclared : (∃ d, c'.device? j = some d) ↔ ∃ d, c.device? j = some d := by
    unfold device?
    rw [← SortedMap.contains_iff, hdevices, SortedMap.contains_iff]
  unfold UnusedSince
  rw [hdeclared, huses, not_or]
  tauto

theorem unusedSince_connect (source : Output) {sink : Input} {driven : Device}
    (sunk : c.device? sink.device = some driven)
    (free : driven.inputs.get? sink.pin = some none) (j : NameId) :
    UnusedSince c₀ { c with
        devices := c.devices.modify sink.device fun d => d.drive sink.pin source
        connections := c.connections + 1 } j ↔ j ≠ source.device ∧ UnusedSince c₀ c j :=
  unusedSince_use (uses_connect sunk free) (SortedMap.contains_modify _ _ _) j

theorem unusedSince_monitor (target : Output) (j : NameId) :
    UnusedSince c₀ { c with monitors := c.monitors.add target } j ↔
      j ≠ target.device ∧ UnusedSince c₀ c j :=
  unusedSince_use (uses_monitor target) (fun _ => rfl) j

end Circuit

/-! ## Drafts -/

/-- The unused devices of a draft are those that its circuit shows no use of, of the devices that
were declared since `c₀`. -/
structure Draft.Tracks (t : NameTable) (c₀ : Circuit) (d : Draft) : Prop where
  known : d.circuit.Over t
  consistent : d.circuit.Consistent t
  grown : c₀.Grown d.circuit
  unused : ∀ id, d.unused.contains id = true ↔ c₀.UnusedSince d.circuit id

namespace Draft.Tracks

variable {t : NameTable} {c₀ : Circuit} {d d' : Draft}

theorem start {c : Circuit} (hover : c.Over t) (h : c.Consistent t) :
    (Draft.start c).Tracks t c where
  known := hover
  consistent := h
  grown := Relation.ReflTransGen.refl
  unused id := by
    refine iff_of_false Bool.false_ne_true ?_
    rintro ⟨hn, ⟨d, hd⟩, -⟩
    exact absurd (hn.symm.trans hd) (by simp)

/-- A statement adds the device that it declares, and takes away the device that it uses. -/
theorem unused_apply (h : d.Tracks t c₀) {st : Statement} (ha : d.apply st = .ok d') (id : NameId) :
    d'.unused.contains id = true ↔ c₀.UnusedSince d'.circuit id := by
  cases acceptedBy_of_apply ha with
  | declaration hc =>
    obtain ⟨hid, setting, -, rfl⟩ := Circuit.declare_eq_ok_iff.mp hc
    rw [SortedSet.contains_add, h.unused, h.consistent.unusedSince_declare h.grown.partOf hid]
  | @connection s _ hc =>
    obtain ⟨driver, driven, -, -, sunk, free, rfl⟩ := Circuit.connect_eq_ok_iff.mp hc
    rw [SortedSet.contains_remove, h.unused]
    exact (Circuit.unusedSince_connect s.source.output sunk free id).symm
  | @monitor m _ hc =>
    obtain ⟨device, -, -, -, rfl⟩ := Circuit.monitor_eq_ok_iff.mp hc
    rw [SortedSet.contains_remove, h.unused]
    exact (Circuit.unusedSince_monitor m.output id).symm

/-- **A segment keeps the unused devices in step with the circuit.** -/
theorem take (h : d.Tracks t c₀) (g : Segment) : (d.take g).2.Tracks t c₀ := by
  rcases d.take_cases g with ⟨fault, ht⟩ | ⟨s, w, -, ht⟩ | ⟨k, w, st, d', -, -, -, ha, ht⟩
  · rw [ht]
    exact h
  · rw [ht]
    exact ⟨h.known, h.consistent, h.grown, h.unused⟩
  · rw [ht]
    have hstep := (step_of_apply ha).1
    exact ⟨h.known.step hstep, h.consistent.step h.known hstep, h.grown.tail hstep,
      h.unused_apply ha⟩

end Draft.Tracks

/-- **Along a whole reading, the unused devices are those that the circuit shows no use of.** -/
theorem Reading.Passes.tracks {t : NameTable} {c₀ : Circuit} {r last : Reading}
    {gs : List Segment} (h : r.Passes gs last) (hr : r.draft.Tracks t c₀) :
    last.draft.Tracks t c₀ := by
  induction h with
  | refl r => exact hr
  | segment _ _ _ ih => exact ih (hr.take _)

end Netlist
