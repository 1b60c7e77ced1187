import Mathlib.Algebra.GroupWithZero.Nat
import Mathlib.Data.List.Nodup
import Netlist.Device
import Netlist.Proofs.Interning

/-!
# What a kind and a setting call for

The settings that a kind admits, the words of the input pins that a device of a kind with a setting
has, and the words of its outputs.

## Results

* `DeviceKind.admits_of_settingFor`: what a qualifier sets, the kind admits.
* `DeviceKind.inputPins_ofNames`, `DeviceKind.outputPins_ofNames`: the pins of a device are those
  of its words.
-/

namespace Netlist

namespace DeviceKind

/-- The settings that a kind admits. -/
def Admits : DeviceKind → Setting → Prop
  | .and, .inputs n | .or, .inputs n | .nand, .inputs n | .nor, .inputs n => 1 ≤ n ∧ n ≤ 16
  | .xor, .nothing | .dtype, .nothing | .switch, .switch _ => True
  | .clock, .period n | .rc, .period n => 1 ≤ n ∧ n < 2 ^ 32
  | .siggen, .waveform levels => levels ≠ []
  | _, _ => False

/-- The words of the input pins: `I1`, `I2`, … for a gate. -/
def inputWords : DeviceKind → Setting → List String
  | _, .inputs n => (List.range n).map fun i => "I" ++ toString (i + 1)
  | .xor, _ => ["I1", "I2"]
  | .dtype, _ => ["DATA", "CLK", "SET", "CLEAR"]
  | _, _ => []

/-- The words of the outputs; `none` is an output without a name. -/
def outputWords : DeviceKind → List (Option String)
  | .dtype => [some "Q", some "QBAR"]
  | _ => [none]

end DeviceKind

/-- The settings that a qualifier of a form can give. -/
def QualifierForm.Admits : QualifierForm → Setting → Prop
  | .inputCount, .inputs n => 1 ≤ n ∧ n ≤ 16
  | .switchState, .switch _ => True
  | .clockPeriod, .period n | .rcPeriod, .period n => 1 ≤ n ∧ n < 2 ^ 32
  | .waveform, .waveform levels => levels ≠ []
  | _, _ => False

theorem QualifierForm.admits_of_setting? {form : QualifierForm} {q : Qualifier}
    {setting : Setting} (h : form.setting? q = some setting) : form.Admits setting := by
  unfold QualifierForm.setting? at h
  split at h
  · split at h
    · rename_i hn
      cases h
      exact hn
    · exact absurd h (by simp)
  · cases h
    trivial
  · cases h
    trivial
  · split at h
    · rename_i hn
      cases h
      exact ⟨hn.1, Nat.lt_succ_of_le hn.2⟩
    · exact absurd h (by simp)
  · split at h
    · rename_i hn
      cases h
      exact ⟨hn.1, Nat.lt_succ_of_le hn.2⟩
    · exact absurd h (by simp)
  · split at h
    · cases h
      exact List.cons_ne_nil _ _
    · exact absurd h (by simp)
  · exact absurd h (by simp)

namespace DeviceKind

variable {kind : DeviceKind} {setting : Setting}

theorem admits_iff :
    kind.Admits setting ↔
      match kind.qualifierForm? with
      | none => setting = .nothing
      | some form => form.Admits setting := by
  cases kind <;> cases setting <;> simp [Admits, qualifierForm?, QualifierForm.Admits]

theorem admits_of_settingFor {qualifier : Option Qualifier}
    (h : kind.settingFor qualifier = some setting) : kind.Admits setting := by
  rw [admits_iff]
  unfold settingFor at h
  cases hf : kind.qualifierForm? with
  | none =>
    rw [hf] at h
    cases qualifier with
    | none => exact (Option.some.inj h).symm
    | some q => exact absurd h (by simp)
  | some form =>
    rw [hf] at h
    cases qualifier with
    | none => exact absurd h (by simp)
    | some q => exact QualifierForm.admits_of_setting? h

theorem take_numberedWords {n : Nat} (h : n ≤ 16) :
    Pin.numberedWords.take n = (List.range n).map fun i => "I" ++ toString (i + 1) := by
  have hall : Pin.numberedWords = (List.range 16).map fun i => "I" ++ toString (i + 1) := rfl
  rw [hall, ← List.map_take, List.take_range, Nat.min_eq_left h]

theorem count_le_of_admits {n : Nat} (h : kind.Admits (.inputs n)) : n ≤ 16 := by
  cases kind <;> simp_all [Admits]

theorem inputWords_inputs {n : Nat} (h : kind.Admits (.inputs n)) :
    kind.inputWords (.inputs n) = Pin.numberedWords.take n := by
  rw [take_numberedWords (count_le_of_admits h)]
  cases kind <;> rfl

/-- The input pins of a device that is made are those of its words. -/
theorem inputPins_ofNames (h : kind.Admits setting) (t : NameTable) :
    Device.inputPins (.ofNames t) kind setting = (kind.inputWords setting).map t.idOf := by
  cases setting with
  | inputs n =>
    have hp : Device.inputPins (.ofNames t) kind (.inputs n) =
        (Pin.numberedWords.map t.idOf).take n := by
      cases kind <;> rfl
    rw [inputWords_inputs h, hp, List.map_take]
  | nothing => cases kind <;> rfl
  | switch b => cases kind <;> rfl
  | period n => cases kind <;> rfl
  | waveform ls => cases kind <;> rfl

theorem outputPins_ofNames (kind : DeviceKind) (t : NameTable) :
    Device.outputPins (.ofNames t) kind = kind.outputWords.map (Option.map t.idOf) := by
  cases kind <;> rfl

/-- The input words of an admitted setting are distinct pin words. -/
theorem inputWords_sublist (h : kind.Admits setting) :
    (kind.inputWords setting).Sublist (Pin.numberedWords ++ Pin.dtypeInputWords) := by
  have hfixed : (kind.inputWords .nothing).Sublist (Pin.numberedWords ++ Pin.dtypeInputWords) := by
    cases kind with
    | xor => exact (List.take_sublist 2 Pin.numberedWords).trans (List.sublist_append_left _ _)
    | dtype => exact List.sublist_append_right _ _
    | _ => exact List.nil_sublist _
  have hother (hs : kind.inputWords setting = kind.inputWords .nothing) :
      (kind.inputWords setting).Sublist (Pin.numberedWords ++ Pin.dtypeInputWords) := hs ▸ hfixed
  cases setting with
  | inputs n =>
    rw [inputWords_inputs h]
    exact (List.take_sublist _ _).trans (List.sublist_append_left _ _)
  | nothing => exact hother rfl
  | switch b => exact hother (by cases kind <;> rfl)
  | period n => exact hother (by cases kind <;> rfl)
  | waveform ls => exact hother (by cases kind <;> rfl)

theorem nodup_inputWords (h : kind.Admits setting) : (kind.inputWords setting).Nodup :=
  List.Nodup.sublist (inputWords_sublist h) (by decide)

theorem mem_words_of_mem_inputWords (h : kind.Admits setting) {w : String}
    (hw : w ∈ kind.inputWords setting) : w ∈ Pin.words :=
  List.mem_append_left _ ((inputWords_sublist h).subset hw)

theorem mem_words_of_mem_outputWords {w : String} (hw : some w ∈ kind.outputWords) :
    w ∈ Pin.words := by
  cases kind with
  | dtype =>
    have hmem : some w ∈ Pin.dtypeOutputWords.map some := hw
    obtain ⟨v, hv, he⟩ := List.mem_map.mp hmem
    cases he
    exact List.mem_append_right _ hv
  | _ => exact absurd (List.mem_singleton.mp hw) (by simp)

end DeviceKind

end Netlist
