import Netlist.Proofs.Growth

/-!
# What a grown circuit keeps

A circuit grows by new devices, by drivers at inputs that had none, and by new monitors. So it is a
part of every circuit that grows out of it (`Circuit.PartOf`): no device, driver or monitor is lost
or changed.

## Results

* `Circuit.Grown.partOf`: **a circuit is part of what grows out of it.**
-/

namespace Netlist

/-! ## Devices -/

namespace Device

/-- `d'` is `d`, but more of its inputs may have a driver. -/
structure PartOf (d d' : Device) : Prop where
  id : d'.id = d.id
  kind : d'.kind = d.kind
  setting : d'.setting = d.setting
  outputs : d'.outputs = d.outputs
  inputs : d'.inputs.keys = d.inputs.keys
  drivers : ∀ {pin o}, d.inputs.get? pin = some (some o) → d'.inputs.get? pin = some (some o)

theorem PartOf.refl (d : Device) : d.PartOf d := ⟨rfl, rfl, rfl, rfl, rfl, fun h => h⟩

theorem PartOf.trans {d d' d'' : Device} (h : d.PartOf d') (h' : d'.PartOf d'') :
    d.PartOf d'' where
  id := h'.id.trans h.id
  kind := h'.kind.trans h.kind
  setting := h'.setting.trans h.setting
  outputs := h'.outputs.trans h.outputs
  inputs := h'.inputs.trans h.inputs
  drivers hd := h'.drivers (h.drivers hd)

/-- A driver at an input that had none changes no other input. -/
theorem partOf_drive {d : Device} {pin : NameId} (h : d.inputs.get? pin = some none)
    (source : Output) : d.PartOf (d.drive pin source) where
  id := rfl
  kind := rfl
  setting := rfl
  outputs := rfl
  inputs := SortedMap.keys_modify _ _ _
  drivers {p o} hd := by
    show (d.inputs.modify pin _).get? p = _
    rw [SortedMap.get?_modify, if_neg, hd]
    rintro rfl
    rw [h] at hd
    cases hd

end Device

/-! ## Circuits -/

namespace Circuit

/-- `c'` has all devices, drivers and monitors of `c`. -/
structure PartOf (c c' : Circuit) : Prop where
  devices : ∀ {id d}, c.device? id = some d → ∃ d', c'.device? id = some d' ∧ d.PartOf d'
  monitors : ∀ {o}, c.monitors.contains o = true → c'.monitors.contains o = true
  connections : c.connections ≤ c'.connections

variable {c c' : Circuit}

theorem PartOf.refl (c : Circuit) : c.PartOf c := ⟨fun h => ⟨_, h, .refl _⟩, id, Nat.le_refl _⟩

theorem PartOf.trans {c'' : Circuit} (h : c.PartOf c') (h' : c'.PartOf c'') : c.PartOf c'' where
  devices hd := by
    obtain ⟨d', hd', hpart⟩ := h.devices hd
    obtain ⟨d'', hd'', hpart'⟩ := h'.devices hd'
    exact ⟨d'', hd'', hpart.trans hpart'⟩
  monitors hm := h'.monitors (h.monitors hm)
  connections := Nat.le_trans h.connections h'.connections

theorem Step.partOf (h : Step c c') : c.PartOf c' := by
  cases h with
  | @declare i kind _ setting fresh _ =>
    refine ⟨fun {id d} hd => ⟨d, ?_, .refl d⟩, id, Nat.le_refl _⟩
    show (c.devices.insert i _).get? id = some d
    rw [SortedMap.get?_insert, if_neg]
    · exact hd
    · rintro rfl
      rw [fresh] at hd
      cases hd
  | @connect source sink _ driven _ _ sunk free =>
    refine ⟨fun {id d} hd => ?_, id, Nat.le_succ _⟩
    show ∃ d', (c.devices.modify sink.device _).get? id = some d' ∧ _
    rw [SortedMap.get?_modify, show c.devices.get? id = some d from hd]
    split
    · rename_i hid
      rw [hid, sunk] at hd
      cases hd
      exact ⟨_, rfl, Device.partOf_drive free source⟩
    · exact ⟨d, rfl, .refl d⟩
  | @monitor target _ _ _ _ =>
    refine ⟨fun {id d} hd => ⟨d, hd, .refl d⟩, fun {o} hm => ?_, Nat.le_refl _⟩
    show (c.monitors.insert target ()).contains o = true
    rw [SortedMap.contains_iff] at hm ⊢
    rw [SortedMap.get?_insert]
    split
    · exact ⟨_, rfl⟩
    · exact hm

/-- **A circuit is part of what grows out of it.** -/
theorem Grown.partOf (h : Grown c c') : c.PartOf c' := by
  induction h with
  | refl => exact .refl c
  | tail _ hs ih => exact ih.trans hs.partOf

end Circuit

end Netlist
