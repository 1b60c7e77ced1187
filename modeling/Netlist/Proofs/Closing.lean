import Netlist.Proofs.Outline
import Netlist.Proofs.Reporting
import Netlist.Proofs.Usage

/-!
# What is missing at the end of the input

A reading that comes to the end of the input reports what the definition lacks: the section after
the last one that was opened, if nothing else was wrong; the inputs without a driver; and the
devices that it declared and that nothing uses.

## Results

* `Reading.Passes.sections`: without an error, the sections opened are the titles that were read.
* `Circuit.Consistent.mem_unconnected_iff`, `Circuit.Consistent.pairwise_unconnected`: what is
  listed as unconnected.
* `Session.closes_read`: **what a reading reports at the end of the input.**
-/

namespace Netlist

open Draft (nameText)

/-! ## Titles -/

/-- The section that a segment opens: that of a heading with its colon. -/
def Segment.title? (g : Segment) : Option Section :=
  match g.head.kind with
  | .heading s _ =>
    if (TokenSource.next g.tail).1.map Token.kind = some .colon then some s else none
  | _ => none

namespace Draft

variable {d : Draft} {g : Segment} {s : Section} {w : Word}

/-- A heading is entered if it is a title, and is a fault otherwise. -/
theorem take_heading (hk : g.head.kind = .heading s w) :
    (g.title? = some s ∧ d.take g = d.enter s g.head.position) ∨
      ∃ fault, d.take g = (some fault, d) := by
  have hexpect := congrArg Prod.fst
    (TokenReader.runOn_expect (TokenKind.only .colon) (.colonExpected s) g.tail)
  unfold take Segment.title?
  rw [hk]
  simp only
  unfold takeHeading
  rw [hexpect]
  simp only
  cases (TokenSource.next g.tail).1 with
  | none => exact .inr ⟨_, rfl⟩
  | some t =>
    by_cases ht : t.kind = .colon
    · simp [TokenReader.fitted, TokenKind.only, ht]
    · simp [TokenReader.fitted, TokenKind.only, ht]

/-- A segment without a fault opens the section of its title, in its order, or it opens none. -/
theorem sections_take (h : (d.take g).1 = none) :
    (g.title? = none ∧ (d.take g).2.sections = d.sections) ∨
      ∃ s, g.title? = some s ∧ (d.sections.enter s).1 = .ok () ∧
        (d.take g).2.sections = (d.sections.enter s).2 := by
  rcases d.take_cases g with ⟨fault, ht⟩ | ⟨s, w, hk, hsections⟩ | ⟨k, w, st, d', hk, -, -, ha, ht⟩
  · rw [ht] at h
    cases h
  · rcases take_heading hk with ⟨htitle, ht⟩ | ⟨fault, ht⟩
    · refine .inr ⟨s, htitle, ?_, by rw [hsections]⟩
      rw [ht] at h
      unfold enter at h
      cases he : d.sections.enter s with
      | mk answer sections =>
        rw [he] at h
        cases answer with
        | ok _ => rfl
        | error e => cases h
    · rw [ht] at h
      cases h
  · refine .inl ⟨?_, by rw [ht]; exact (step_of_apply ha).2⟩
    unfold Segment.title?
    rw [hk]

end Draft

namespace SectionHistory

/-- The sections up to one, each entered in its order. -/
theorem opened_upTo_predecessor (s : Section) :
    (upTo (some s)).opened.reverse = (upTo s.predecessors.getLast?).opened.reverse ++ [s] := by
  cases s <;> rfl

/-- The first missing section stands behind those that were opened in order. -/
theorem firstMissing_upTo (a : Option Section) :
    ((upTo a).firstMissing.isSome = true ↔ (upTo a).opened.reverse.length < 3) ∧
      ∀ s ∈ (upTo a).firstMissing, s.predecessors.getLast? = (upTo a).opened.reverse.getLast? := by
  cases a with
  | none => decide
  | some s => cases s <;> decide

end SectionHistory

/-- **Without an error, the sections that were opened are the titles that were read**, in the order
of the sections. -/
theorem Reading.Passes.sections {r last : Reading} {gs : List Segment} {a : Option Section}
    (h : r.Passes gs last) (hlast : last.log.count = 0) (hr : r.draft.sections = .upTo a) :
    ∃ b, last.draft.sections = .upTo b ∧ (SectionHistory.upTo b).opened.reverse =
      (SectionHistory.upTo a).opened.reverse ++ gs.filterMap Segment.title? := by
  induction h generalizing a with
  | refl r => exact ⟨a, hr, (List.append_nil _).symm⟩
  | @segment r last g gs stream next _ rest ih =>
    have hclean : (r.takeSegment g stream).clean = true :=
      clean_iff.mpr (Nat.le_zero.mp (hlast ▸ rest.grown.count_le))
    have hnone := (clean_takeSegment_iff.mp hclean).2
    rcases Draft.sections_take hnone with ⟨htitle, hsections⟩ | ⟨s, htitle, hok, hsections⟩
    · obtain ⟨b, hb, hopened⟩ := ih hlast (hsections.trans hr)
      exact ⟨b, hb, by rw [hopened, List.filterMap_cons_none htitle]⟩
    · rw [hr] at hok hsections
      obtain rfl := SectionHistory.enter_upTo.mp hok
      obtain ⟨b, hb, hopened⟩ := ih hlast (a := some s) (by
        rw [SectionHistory.enter_upTo_predecessor] at hsections
        exact hsections)
      refine ⟨b, hb, ?_⟩
      rw [hopened, SectionHistory.opened_upTo_predecessor, List.filterMap_cons_some htitle,
        List.append_assoc]
      rfl

/-- Where no error was reported, the section behind the last title is missing. -/
theorem Reading.Passes.missing {r last : Reading} {gs : List Segment} (h : r.Passes gs last)
    (hr : r.draft.sections = .upTo none) :
    let missing := if last.clean then last.draft.sections.firstMissing else none
    (missing.isSome = true ↔
      last.log.count = 0 ∧ (gs.filterMap Segment.title?).length < 3) ∧
      ∀ s ∈ missing, s.predecessors.getLast? = (gs.filterMap Segment.title?).getLast? := by
  intro missing
  by_cases hclean : last.clean = true
  · have hcount := clean_iff.mp hclean
    obtain ⟨b, hb, htitles⟩ := h.sections hcount hr
    replace htitles : (SectionHistory.upTo b).opened.reverse = gs.filterMap Segment.title? :=
      htitles
    have hmissing : missing = (SectionHistory.upTo b).firstMissing := by
      rw [← hb]
      exact if_pos hclean
    rw [hmissing, ← htitles, and_iff_right hcount]
    exact SectionHistory.firstMissing_upTo b
  · have hmissing : missing = none := if_neg hclean
    rw [hmissing]
    exact ⟨iff_of_false Bool.false_ne_true fun hm => hclean (clean_iff.mpr hm.1), nofun⟩

/-! ## Inputs without a driver -/

/-- The order of inputs: by device, and within a device by pin. -/
def Input.Before (i j : Input) : Prop :=
  i.device < j.device ∨ i.device = j.device ∧ i.pin < j.pin

theorem Device.mem_undriven_iff {d : Device} {pin : NameId} :
    pin ∈ d.undriven ↔ d.inputs.get? pin = some none := by
  unfold Device.undriven
  rw [List.mem_filterMap, ← SortedMap.mem_entries_iff]
  constructor
  · rintro ⟨⟨p, slot⟩, he, hslot⟩
    cases slot with
    | none =>
      obtain rfl := Option.some.inj hslot
      exact he
    | some o => cases hslot
  · exact fun he => ⟨_, he, rfl⟩

theorem Device.pairwise_undriven (d : Device) : d.undriven.Pairwise (· < ·) := by
  unfold Device.undriven
  rw [List.pairwise_filterMap]
  refine d.inputs.sorted.imp fun {e f} hlt p hp q hq => ?_
  obtain ⟨-, hp⟩ := Option.ite_none_right_eq_some.mp hp
  obtain ⟨-, hq⟩ := Option.ite_none_right_eq_some.mp hq
  rw [← Option.some.inj hp, ← Option.some.inj hq]
  exact hlt

namespace Circuit

variable {t : NameTable} {c : Circuit}

/-- The inputs of declared devices without a driver are listed. -/
theorem Consistent.mem_unconnected_iff (h : c.Consistent t) {i : Input} :
    i ∈ c.unconnected ↔
      ∃ d, c.device? i.device = some d ∧ d.inputs.get? i.pin = some none := by
  unfold unconnected
  rw [List.mem_flatMap]
  constructor
  · rintro ⟨d, hd, hi⟩
    obtain ⟨id, hid⟩ := SortedMap.mem_values_iff.mp hd
    obtain ⟨pin, hpin, rfl⟩ := List.mem_map.mp hi
    refine ⟨d, ?_, Device.mem_undriven_iff.mp hpin⟩
    rw [(h.devices hid).own]
    exact hid
  · rintro ⟨d, hd, hpin⟩
    refine ⟨d, SortedMap.mem_values_iff.mpr ⟨_, hd⟩, List.mem_map.mpr
      ⟨i.pin, Device.mem_undriven_iff.mpr hpin, ?_⟩⟩
    rw [(h.devices hd).own]

/-- They are listed in their order, each once. -/
theorem Consistent.pairwise_unconnected (h : c.Consistent t) :
    c.unconnected.Pairwise Input.Before := by
  have hvalues : c.devices.values.Pairwise fun d e => d.id < e.id := by
    unfold SortedMap.values
    rw [List.pairwise_map]
    refine c.devices.sorted.imp_of_mem fun {e f} he hf hlt => ?_
    rw [(h.devices (SortedMap.mem_entries_iff.mp he)).own,
      (h.devices (SortedMap.mem_entries_iff.mp hf)).own]
    exact hlt
  unfold unconnected
  rw [List.pairwise_flatMap]
  refine ⟨fun d _ => ?_, hvalues.imp fun hlt i hi j hj => ?_⟩
  · rw [List.pairwise_map]
    exact d.pairwise_undriven.imp fun hlt => .inr ⟨rfl, hlt⟩
  · obtain ⟨p, -, rfl⟩ := List.mem_map.mp hi
    obtain ⟨q, -, rfl⟩ := List.mem_map.mp hj
    exact .inl hlt

end Circuit

/-! ## The end of the input -/

/-- What the reading `r` reports at the end of the input, which it comes to at `last`, behind the
segments `gs`: a section is missing, inputs have no driver, and devices are not used. -/
structure Reading.Closes (r last : Reading) (gs : List Segment) (missing : Option Section)
    (inputs : List Input) (devices : List NameId) : Prop where
  /-- The messages about what is missing follow the errors of the segments, and there are no
  others. -/
  diagnostics : r.parse.2.log.diagnostics = last.log.diagnostics ++
    (endMessages missing
      (inputs.map fun i => (nameText last.names i.device, nameText last.names i.pin))
      (devices.map (nameText last.names))).mapIdx fun i message =>
        ⟨last.log.count + i + 1, message, none⟩
  /-- A section is missing if no error was reported and fewer than three titles were read. -/
  missing_iff : missing.isSome = true ↔
    last.log.count = 0 ∧ (gs.filterMap Segment.title?).length < 3
  /-- The missing section is the one behind the last title. -/
  missing_behind : ∀ s ∈ missing, s.predecessors.getLast? = (gs.filterMap Segment.title?).getLast?
  inputs_sorted : inputs.Pairwise Input.Before
  mem_inputs : ∀ i, i ∈ inputs ↔
    ∃ d, last.circuit.device? i.device = some d ∧ d.inputs.get? i.pin = some none
  devices_sorted : devices.Pairwise (· < ·)
  mem_devices : ∀ id, id ∈ devices ↔ r.circuit.UnusedSince last.circuit id
  /-- On the way, a device is kept as unused just if it was declared in this reading and no driver
  or monitor names it. -/
  unused : ∀ {gs' mid}, r.Passes gs' mid →
    ∀ id, mid.draft.unused.contains id = true ↔ r.circuit.UnusedSince mid.circuit id
  /-- A segment with a fault is no use of a device. -/
  refused : ∀ {gs' mid g}, r.Passes gs' mid → (mid.draft.take g).1 ≠ none →
    (mid.draft.take g).2.circuit = mid.circuit ∧ (mid.draft.take g).2.unused = mid.draft.unused

/-- A segment with a fault changes neither the circuit nor the unused devices. -/
theorem Draft.frame_take_of_fault {d : Draft} {g : Segment} (h : (d.take g).1 ≠ none) :
    (d.take g).2.circuit = d.circuit ∧ (d.take g).2.unused = d.unused := by
  rcases d.take_cases g with ⟨fault, ht⟩ | ⟨s, w, -, ht⟩ | ⟨k, w, st, d', -, -, -, -, ht⟩
  · rw [ht]
    exact ⟨rfl, rfl⟩
  · rw [ht]
    exact ⟨rfl, rfl⟩
  · rw [ht] at h
    exact absurd rfl h

/-- **What is reported at the end of the input**, in any session that can be reached, when a reading
comes there. -/
theorem Session.closes_read (words : List String) (commands : List Command) (source : String)
    (limit : Option Nat) {gs : List Segment} {last : Reading}
    (h : (((start words).runAll commands).read source limit).ReachesEnd gs last) :
    ∃ missing inputs devices,
      (((start words).runAll commands).read source limit).Closes last gs missing inputs devices := by
  have hs := consistent_reachable words commands
  generalize (start words).runAll commands = s at h hs
  set r := s.read source limit
  have hr : r.draft.Tracks s.names r.circuit := .start hs.known hs.circuit
  have htracks := h.passes.tracks hr
  refine ⟨if last.clean then last.draft.sections.firstMissing else none,
    last.circuit.unconnected, last.draft.unused.keys, ?_⟩
  have hmissing := h.passes.missing (show r.draft.sections = .upTo none from rfl)
  exact {
    diagnostics := by
      rw [show r.parse = r.readOn from rfl, h.readOn_eq]
      show last.complete.log.diagnostics = _
      rw [last.diagnostics_complete_eq, Draft.map_message_omissions]
      rfl
    missing_iff := hmissing.1
    missing_behind := hmissing.2
    inputs_sorted := htracks.consistent.pairwise_unconnected
    mem_inputs := fun i => htracks.consistent.mem_unconnected_iff
    devices_sorted := by
      unfold SortedMap.keys
      rw [List.pairwise_map]
      exact last.draft.unused.sorted
    mem_devices := fun id => SortedMap.mem_keys_iff.trans (htracks.unused id)
    unused := fun hmid => (hmid.tracks hr).unused
    refused := fun _ => Draft.frame_take_of_fault }

/-- An input without a driver, and a switch that nothing uses. -/
theorem Session.closes_read_switch :
    let r := ((start []).runAll []).read
      "DEVICE: SWITCH a = 1; SWITCH b = 0; AND g = 2; CONNECTION: CON a -> g.I1; MONITOR: MON g;"
      none
    (∃ gs last missing inputs devices, r.ReachesEnd gs last ∧
      r.Closes last gs missing inputs devices) ∧
    r.parse.2.log.diagnostics =
      [⟨1, "Some inputs are not connected: g.I2", none⟩,
        ⟨2, "Some devices are never used: b", none⟩] := by
  intro r
  obtain ⟨gs, last, h⟩ := Reading.exists_reachesEnd (r := r) rfl
  obtain ⟨missing, inputs, devices, hcloses⟩ := closes_read [] [] _ none h
  exact ⟨⟨gs, last, missing, inputs, devices, h, hcloses⟩, by decide +kernel⟩

end Netlist
