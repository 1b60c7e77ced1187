import Mathlib.Data.List.Forall2
import Netlist.Proofs.Clauses

/-!
# Well-typed definitions

The declarations of a definition are the parts of a blueprint when their qualifiers fit. A
definition is well typed just if it makes a coherent blueprint with its connections and monitors in
which nothing is missing.

## Results

* `DeviceLine.fits_iff`: a declaration fits if it has a setting.
* `Definition.wellTyped_iff`: **a definition is well typed just if it makes a blueprint in which
  nothing is missing.**
-/

namespace Netlist

/-! ## Qualifiers -/

theorem maxPeriod_eq : maxPeriod = 2 ^ 32 - 1 := rfl

namespace Numeral

theorem maxWord_eq : maxWord = 2 ^ 64 - 1 := rfl

theorem wordValue_eq_iff {ds : List Char} {n : Nat} (hn : n < maxWord) :
    wordValue ds = n ↔ value ds = n := by
  unfold wordValue
  omega

theorem wordValue_le_iff {ds : List Char} {n : Nat} (hn : n < maxWord) :
    wordValue ds ≤ n ↔ value ds ≤ n := by
  unfold wordValue
  omega

theorem one_le_wordValue_iff {ds : List Char} : 1 ≤ wordValue ds ↔ 1 ≤ value ds := by
  unfold wordValue
  rw [maxWord_eq]
  omega

end Numeral

theorem isSome_level?_iff {c : Char} : (level? c).isSome = true ↔ c = '0' ∨ c = '1' := by
  unfold level?
  split <;> simp_all

/-- A sequence of digits has levels if each digit has one. -/
theorem isSome_mapM_level?_iff {cs : List Char} :
    (cs.mapM level?).isSome = true ↔ ∀ c ∈ cs, c = '0' ∨ c = '1' := by
  induction cs with
  | nil => simp
  | cons c cs ih =>
    rw [List.forall_mem_cons, ← ih, ← isSome_level?_iff, List.mapM_cons]
    cases level? c with
    | none => simp
    | some b => cases cs.mapM level? <;> simp

namespace QualifierForm

/-- Whether the value of a numeral is in the range of a form. -/
def InRange (form : QualifierForm) (ds : String) : Prop :=
  match form with
  | .inputCount => 1 ≤ Numeral.value ds.toList ∧ Numeral.value ds.toList ≤ 16
  | .switchState => Numeral.value ds.toList = 0 ∨ Numeral.value ds.toList = 1
  | .clockPeriod | .rcPeriod => 1 ≤ Numeral.value ds.toList ∧ Numeral.value ds.toList < 2 ^ 32
  | .waveform => ds.toList ≠ [] ∧ ∀ c ∈ ds.toList, c = '0' ∨ c = '1'

theorem isSome_setting?_iff (form : QualifierForm) (ds : String) :
    (form.setting? (form.ofNumeral ds)).isSome = true ↔ form.InRange ds := by
  have hgate : 1 ≤ Numeral.wordValue ds.toList ∧ Numeral.wordValue ds.toList ≤ maxGateInputs ↔
      1 ≤ Numeral.value ds.toList ∧ Numeral.value ds.toList ≤ 16 :=
    and_congr Numeral.one_le_wordValue_iff (Numeral.wordValue_le_iff (by decide))
  have hperiod : 1 ≤ Numeral.wordValue ds.toList ∧ Numeral.wordValue ds.toList ≤ maxPeriod ↔
      1 ≤ Numeral.value ds.toList ∧ Numeral.value ds.toList < 2 ^ 32 := by
    refine and_congr Numeral.one_le_wordValue_iff ?_
    rw [Numeral.wordValue_le_iff (by decide)]
    rw [maxPeriod_eq]
    omega
  cases form with
  | inputCount => simp [setting?, ofNumeral, InRange, hgate]
  | clockPeriod => simp [setting?, ofNumeral, InRange, hperiod]
  | rcPeriod => simp [setting?, ofNumeral, InRange, hperiod]
  | switchState =>
    unfold InRange
    rw [← Numeral.wordValue_eq_iff (n := 0) (by decide), ← Numeral.wordValue_eq_iff (n := 1)
      (by decide)]
    simp only [ofNumeral, reduceCtorEq, if_false]
    rcases Numeral.wordValue ds.toList with _ | _ | n <;> simp [setting?]
  | waveform =>
    unfold InRange
    rw [← isSome_mapM_level?_iff]
    simp only [ofNumeral, if_true, setting?]
    cases ds.toList with
    | nil => simp
    | cons c cs =>
      rw [List.mapM_cons]
      cases level? c with
      | none => simp
      | some b => cases cs.mapM level? <;> simp

end QualifierForm

/-! ## Declarations -/

/-- A declaration declares a part. -/
structure DeviceLine.Declares (x : DeviceLine) (y : Part) : Prop where
  readable : x.Readable
  name : y.name = x.name
  kind : y.kind = x.kind
  setting : x.kind.settingFor x.value = some y.setting

namespace DeviceLine

variable {x : DeviceLine} {y : Part}

theorem fits_iff_inRange : x.Fits ↔
    match x.kind.qualifierForm?, x.qualifier with
    | none, none => True
    | some form, some ds => form.InRange ds
    | _, _ => False := by
  obtain ⟨kind, name, qualifier⟩ := x
  cases kind <;> cases qualifier <;> exact Iff.rfl

/-- A declaration fits if its qualifier is there for its kind and gives a setting. -/
theorem fits_iff : x.Fits ↔ x.qualifier.isSome = x.kind.qualifierForm?.isSome ∧
    (x.kind.settingFor x.value).isSome = true := by
  rw [fits_iff_inRange]
  unfold value DeviceKind.settingFor
  cases x.kind.qualifierForm? with
  | none => cases x.qualifier <;> simp
  | some form =>
    cases x.qualifier with
    | none => simp
    | some ds => simp [QualifierForm.isSome_setting?_iff]

theorem exists_declares (hn : x.name ∉ Vocabulary.words) (hf : x.Fits) :
    ∃ y, x.Declares y := by
  obtain ⟨hq, hs⟩ := fits_iff.mp hf
  obtain ⟨setting, hs⟩ := Option.isSome_iff_exists.mp hs
  exact ⟨⟨x.name, x.kind, setting⟩, ⟨hn, hq⟩, rfl, rfl, hs⟩

theorem Declares.fits (h : x.Declares y) : x.Fits :=
  fits_iff.mpr ⟨h.readable.qualified, by rw [h.setting]; rfl⟩

/-- The number of inputs that a numeral sets is its value. -/
theorem eq_value_of_setting? {form : QualifierForm} {ds : String} {n : Nat}
    (h : form.setting? (form.ofNumeral ds) = some (.inputs n)) : n = Numeral.value ds.toList := by
  unfold QualifierForm.setting? at h
  split at h
  · rename_i m hm
    obtain rfl : Numeral.wordValue ds.toList = m := Qualifier.value.inj hm
    split at h
    · rename_i hle
      cases h
      unfold Numeral.wordValue maxGateInputs at hle
      have hword := Numeral.maxWord_eq
      unfold Numeral.wordValue at *
      omega
    · cases h
  · cases h
  · cases h
  · split at h <;> cases h
  · split at h <;> cases h
  · split at h <;> cases h
  · cases h

theorem Declares.count (h : x.Declares y) {n : Nat} (hn : y.setting = .inputs n) :
    ∃ ds, x.qualifier = some ds ∧ n = Numeral.value ds.toList := by
  have hs := h.setting
  rw [hn] at hs
  unfold value DeviceKind.settingFor at hs
  cases hf : x.kind.qualifierForm? with
  | none =>
    rw [hf] at hs
    cases hs
  | some form =>
    rw [hf] at hs
    cases hq : x.qualifier with
    | none =>
      rw [hq] at hs
      cases hs
    | some ds =>
      rw [hq] at hs
      exact ⟨ds, rfl, eq_value_of_setting? hs⟩

/-- The part has the inputs that the declaration says. -/
theorem Declares.inputs (h : x.Declares y) : y.inputs = x.inputs := by
  have hadmits := DeviceKind.admits_of_settingFor h.setting
  unfold Part.inputs DeviceLine.inputs
  rw [h.kind]
  cases hs : y.setting with
  | inputs n =>
    obtain ⟨ds, hq, rfl⟩ := h.count hs
    rw [hs] at hadmits
    rw [hq]
    cases hk : x.kind <;> rw [hk] at hadmits <;> first | rfl | cases hadmits
  | _ =>
    rw [hs] at hadmits
    cases hk : x.kind <;> rw [hk] at hadmits <;> first | rfl | cases hadmits

/-- The part has the outputs that the declaration offers. -/
theorem Declares.offers_iff (h : x.Declares y) {o : OutputName} :
    x.Offers o ↔ y.name = o.device ∧ o.pin ∈ y.kind.outputWords := by
  unfold Offers
  rw [h.name, h.kind, mem_outputWords_iff]
  by_cases hk : x.kind = .dtype
  · simp [hk, Pin.dtypeOutputWords]
  · simp [hk]

end DeviceLine

/-! ## Definitions -/

section Forall₂

variable {α β : Type} {R : α → β → Prop} {as : List α} {bs : List β} {p : α → Prop} {q : β → Prop}

theorem exists_mem_iff_of_forall₂ (h : List.Forall₂ R as bs) (hpq : ∀ a b, R a b → (p a ↔ q b)) :
    (∃ a ∈ as, p a) ↔ ∃ b ∈ bs, q b := by
  induction h with
  | nil => simp
  | cons hab _ ih => simp only [List.exists_mem_cons_iff, ih, hpq _ _ hab]

theorem forall_mem_iff_of_forall₂ (h : List.Forall₂ R as bs) (hpq : ∀ a b, R a b → (p a ↔ q b)) :
    (∀ a ∈ as, p a) ↔ ∀ b ∈ bs, q b := by
  induction h with
  | nil => simp
  | cons hab _ ih => simp only [List.forall_mem_cons, ih, hpq _ _ hab]

theorem exists_forall₂ (h : ∀ a ∈ as, ∃ b, R a b) : ∃ bs, List.Forall₂ R as bs := by
  induction as with
  | nil => exact ⟨[], .nil⟩
  | cons a as ih =>
    rw [List.forall_mem_cons] at h
    obtain ⟨b, hb⟩ := h.1
    obtain ⟨bs, hbs⟩ := ih h.2
    exact ⟨b :: bs, .cons hb hbs⟩

end Forall₂

/-- A definition makes a blueprint: its declarations are the parts, its connections the wires and
its monitors the probes. -/
structure Definition.Makes (d : Definition) (B : Blueprint) : Prop where
  parts : List.Forall₂ DeviceLine.Declares d.devices B.parts
  wires : B.wires = d.connections
  probes : B.probes = d.monitors
  coherent : B.Coherent

/-- Nothing is missing: every input is driven, and every part is used. -/
structure Blueprint.Complete (B : Blueprint) : Prop where
  driven : ∀ x ∈ B.parts, ∀ pin ∈ x.inputs, B.Driven x.name pin
  used : ∀ x ∈ B.parts, B.Uses x.name

namespace Definition

variable {d : Definition} {B : Blueprint}

theorem map_name_of_forall₂ {xs : List DeviceLine} {ys : List Part}
    (h : List.Forall₂ DeviceLine.Declares xs ys) : ys.map Part.name = xs.map DeviceLine.name := by
  induction h with
  | nil => rfl
  | cons hxy _ ih => rw [List.map_cons, List.map_cons, hxy.name, ih]

theorem offers_iff_hasOutput (h : List.Forall₂ DeviceLine.Declares d.devices B.parts)
    {o : OutputName} : (∃ x ∈ d.devices, x.Offers o) ↔ B.HasOutput o :=
  exists_mem_iff_of_forall₂ h fun _ _ hxy => hxy.offers_iff

theorem inputs_iff_hasInput (h : List.Forall₂ DeviceLine.Declares d.devices B.parts)
    {device pin : String} :
    (∃ x ∈ d.devices, x.name = device ∧ pin ∈ x.inputs) ↔ B.HasInput device pin :=
  exists_mem_iff_of_forall₂ h fun _ _ hxy => by rw [hxy.name, hxy.inputs]

/-- How many connections go to an input. -/
def fanIn (d : Definition) (device pin : String) : Nat :=
  d.connections.countP fun w => w.device = device ∧ w.pin = pin

theorem count_map_sink (d : Definition) (device pin : String) :
    (d.connections.map fun w => (w.device, w.pin)).count (device, pin) = d.fanIn device pin := by
  unfold fanIn
  rw [List.count_eq_countP, List.countP_map]
  congr 1
  funext w
  rw [Bool.eq_iff_iff]
  simp

theorem driven_iff (hw : B.wires = d.connections) {device pin : String} :
    B.Driven device pin ↔ 0 < d.fanIn device pin := by
  unfold Blueprint.Driven fanIn
  rw [List.countP_pos_iff, hw]
  simp

theorem Makes.driven_iff (h : d.Makes B) :
    (∀ x ∈ d.devices, ∀ pin ∈ x.inputs, d.fanIn x.name pin = 1) ↔
      ∀ y ∈ B.parts, ∀ pin ∈ y.inputs, B.Driven y.name pin := by
  refine forall_mem_iff_of_forall₂ h.parts fun x y hxy => ?_
  rw [hxy.name, hxy.inputs]
  refine forall₂_congr fun pin _ => ?_
  have hle : d.fanIn x.name pin ≤ 1 := by
    rw [← count_map_sink, ← h.wires]
    exact List.nodup_iff_count_le_one.mp h.coherent.drivers _
  rw [Definition.driven_iff h.wires]
  omega

theorem Makes.used_iff (h : d.Makes B) :
    (∀ x ∈ d.devices, (∃ w ∈ d.connections, w.source.device = x.name) ∨
      ∃ o ∈ d.monitors, o.device = x.name) ↔ ∀ y ∈ B.parts, B.Uses y.name := by
  refine forall_mem_iff_of_forall₂ h.parts fun x y hxy => ?_
  unfold Blueprint.Uses
  rw [hxy.name, h.wires, h.probes]

/-- A definition that makes a blueprint in which nothing is missing is well typed. -/
theorem Makes.wellTyped (h : d.Makes B) (hB : B.Complete) : d.WellTyped where
  distinct := by
    rw [← map_name_of_forall₂ h.parts]
    exact h.coherent.names
  unreserved := (forall_mem_iff_of_forall₂ h.parts (q := fun _ => True) fun _ _ hxy =>
    iff_of_true hxy.readable.unreserved trivial).mpr fun _ _ => trivial
  fits := (forall_mem_iff_of_forall₂ h.parts (q := fun _ => True) fun _ _ hxy =>
    iff_of_true hxy.fits trivial).mpr fun _ _ => trivial
  sources w hw := (offers_iff_hasOutput h.parts).mpr (h.coherent.sources w (h.wires ▸ hw))
  sinks w hw := (inputs_iff_hasInput h.parts).mpr (h.coherent.sinks w (h.wires ▸ hw))
  driven := h.driven_iff.mpr hB.driven
  outputs o ho := (offers_iff_hasOutput h.parts).mpr (h.coherent.outputs o (h.probes ▸ ho))
  monitors := h.probes ▸ h.coherent.probes
  used := h.used_iff.mpr hB.used

/-- A well-typed definition makes a blueprint in which nothing is missing. -/
theorem WellTyped.exists_makes (h : d.WellTyped) : ∃ B, d.Makes B ∧ B.Complete := by
  obtain ⟨ys, hys⟩ := exists_forall₂ fun x hx =>
    DeviceLine.exists_declares (h.unreserved x hx) (h.fits x hx)
  have hcoherent : (Blueprint.mk ys d.connections d.monitors).Coherent := by
    refine ⟨?_, ?_, fun w hw => (offers_iff_hasOutput hys).mp (h.sources w hw),
      fun w hw => (inputs_iff_hasInput hys).mp (h.sinks w hw), ?_,
      fun o ho => (offers_iff_hasOutput hys).mp (h.outputs o ho), h.monitors⟩
    · show (ys.map Part.name).Nodup
      rw [map_name_of_forall₂ hys]
      exact h.distinct
    · refine (forall_mem_iff_of_forall₂ hys (p := fun _ => True) fun x y hxy => ?_).mp
        fun _ _ => trivial
      rw [hxy.kind]
      exact iff_of_true trivial (DeviceKind.admits_of_settingFor hxy.setting)
    · refine List.nodup_iff_count_le_one.mpr fun (device, pin) => ?_
      rw [count_map_sink]
      by_contra hlt
      obtain ⟨w, hw, hkey⟩ := List.countP_pos_iff.mp (Nat.zero_lt_of_lt (Nat.lt_of_not_le hlt))
      obtain ⟨rfl, rfl⟩ := of_decide_eq_true hkey
      obtain ⟨x, hx, hname, hpin⟩ := h.sinks w hw
      have hone : d.fanIn x.name w.pin = 1 := h.driven x hx w.pin hpin
      rw [hname] at hone
      omega
  have hmakes : d.Makes (Blueprint.mk ys d.connections d.monitors) := ⟨hys, rfl, rfl, hcoherent⟩
  exact ⟨_, hmakes, hmakes.driven_iff.mp h.driven, hmakes.used_iff.mp h.used⟩

/-- **A definition is well typed just if it makes a blueprint in which nothing is missing.** -/
theorem wellTyped_iff : d.WellTyped ↔ ∃ B, d.Makes B ∧ B.Complete :=
  ⟨WellTyped.exists_makes, fun ⟨_, h, hB⟩ => h.wellTyped hB⟩

end Definition

end Netlist
