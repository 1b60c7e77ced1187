import Mathlib.Data.Nat.Digits.Defs
import Netlist.Proofs.Typing
import Netlist.Proofs.Validation

/-!
# What a numeral sets

A numeral reaches a device by way of a 64-bit word that is cut off at the largest one, and the range
of its kind is tested on that word. This loses nothing: every range ends far below the largest word,
so a declaration is judged by the number that its digits spell, however many there are and whatever
zeros stand in front. The levels of a signal generator are its digits one by one.

## Results

* `Numeral.value_eq_ofDigits`: the value of a numeral is the number with these decimal digits.
* `DeviceLine.Fits.settingFor`: a declaration that fits sets the true value of its numeral.
* `Draft.exists_take_declaration`, `Session.exists_take_read`: a declaration that can be read is
  declared as it is written.
* `Session.sets_read`: **a declaration is accepted just if its numeral is in range, and then it sets
  the value of the numeral.**
-/

namespace Netlist

/-! ## Values -/

/-- **The value of a numeral is the number with these decimal digits**, the last one standing for
the units. -/
theorem Numeral.value_eq_ofDigits (ds : List Char) :
    value ds = Nat.ofDigits 10 (ds.reverse.map digitValue) := by
  rw [Nat.ofDigits_eq_foldr, List.foldr_map, List.foldr_reverse]
  unfold value
  congr 1
  funext n c
  exact Nat.add_comm _ _

theorem level?_eq {c : Char} (h : c = '0' ∨ c = '1') : level? c = some (c == '1') := by
  rcases h with rfl | rfl <;> rfl

/-- A sequence of zeros and ones has their levels. -/
theorem mapM_level?_eq {cs : List Char} (h : ∀ c ∈ cs, c = '0' ∨ c = '1') :
    cs.mapM level? = some (cs.map (· == '1')) := by
  induction cs with
  | nil => rfl
  | cons c cs ih =>
    obtain ⟨hc, hcs⟩ := List.forall_mem_cons.mp h
    rw [List.mapM_cons, level?_eq hc, ih hcs]
    rfl

/-- A value that a word has room for is not cut off. -/
theorem Numeral.wordValue_of_lt {ds : List Char} (h : value ds < 2 ^ 32) :
    wordValue ds = value ds :=
  (wordValue_eq_iff (h.trans (by decide))).mpr rfl

/-! ## Settings -/

namespace QualifierForm

variable {ds : String}

theorem setting?_inputCount (h : InRange .inputCount ds) :
    setting? .inputCount (ofNumeral .inputCount ds) = some (.inputs (Numeral.value ds.toList)) := by
  show (if 1 ≤ Numeral.wordValue ds.toList ∧ Numeral.wordValue ds.toList ≤ 16 then _ else _) = _
  rw [Numeral.wordValue_of_lt (h.2.trans_lt (by decide))]
  exact if_pos h

theorem setting?_switchState (h : InRange .switchState ds) :
    setting? .switchState (ofNumeral .switchState ds) =
      some (.switch (Numeral.value ds.toList == 1)) := by
  show setting? .switchState (.value (Numeral.wordValue ds.toList)) = _
  rcases h with h | h <;> rw [Numeral.wordValue_of_lt (by omega), h] <;> rfl

theorem setting?_period {form : QualifierForm} (hform : form = .clockPeriod ∨ form = .rcPeriod)
    (h : InRange .clockPeriod ds) :
    form.setting? (form.ofNumeral ds) = some (.period (Numeral.value ds.toList)) := by
  have hle : 1 ≤ Numeral.value ds.toList ∧ Numeral.value ds.toList ≤ maxPeriod :=
    ⟨h.1, Nat.le_sub_one_of_lt h.2⟩
  have hword := Numeral.wordValue_of_lt h.2
  rcases hform with rfl | rfl
  all_goals
    show (if 1 ≤ Numeral.wordValue ds.toList ∧ Numeral.wordValue ds.toList ≤ maxPeriod then _
      else _) = _
    rw [hword]
    exact if_pos hle

theorem setting?_waveform (h : InRange .waveform ds) :
    setting? .waveform (ofNumeral .waveform ds) = some (.waveform (ds.toList.map (· == '1'))) := by
  obtain ⟨hne, hds⟩ := h
  have hlevels := mapM_level?_eq hds
  cases hcs : ds.toList with
  | nil => exact absurd hcs hne
  | cons c cs =>
    rw [hcs] at hlevels
    simp [ofNumeral, setting?, hcs, hlevels]

end QualifierForm

namespace DeviceLine

variable {x : DeviceLine}

/-- What a declaration says that its device is set to. -/
def setting (x : DeviceLine) : Setting :=
  match x.kind, x.qualifier with
  | .and, some ds | .or, some ds | .nand, some ds | .nor, some ds =>
    .inputs (Numeral.value ds.toList)
  | .switch, some ds => .switch (Numeral.value ds.toList == 1)
  | .clock, some ds | .rc, some ds => .period (Numeral.value ds.toList)
  | .siggen, some ds => .waveform (ds.toList.map (· == '1'))
  | _, _ => .nothing

/-- **A declaration that fits sets the true value of its numeral.** -/
theorem Fits.settingFor (h : x.Fits) : x.kind.settingFor x.value = some x.setting := by
  obtain ⟨kind, name, qualifier⟩ := x
  cases qualifier with
  | none => cases kind <;> first | rfl | cases h
  | some ds =>
    cases kind with
    | and | or | nand | nor => exact QualifierForm.setting?_inputCount h
    | switch => exact QualifierForm.setting?_switchState h
    | clock => exact QualifierForm.setting?_period (.inl rfl) h
    | rc => exact QualifierForm.setting?_period (.inr rfl) h
    | siggen => exact QualifierForm.setting?_waveform h
    | xor | dtype => cases h

theorem settingFor_of_not_fits (hx : x.Readable) (h : ¬x.Fits) :
    x.kind.settingFor x.value = none := by
  refine Option.eq_none_iff_forall_ne_some.mpr fun s hs => h (fits_iff.mpr ⟨hx.qualified, ?_⟩)
  rw [hs]
  rfl

end DeviceLine

/-! ## Declarations -/

/-- A declaration says what is written in a declaration line. -/
structure Declaration.Says (t : NameTable) (s : Declaration) (x : DeviceLine) : Prop where
  name : s.name = t.word x.name
  kind : s.kind = x.kind
  qualifier : s.qualifier.map Prod.fst = x.value

section Declarations

variable {t : NameTable} {d : Draft} {x : DeviceLine} {s : Declaration} {c : Chunk} {p : Position}

/-- **A declaration that can be read is declared as it is written.** -/
theorem Draft.exists_take_declaration (hover : d.circuit.Over t) (hcut : c.Cut)
    (hknows : t.Knows c.lexemes) (hx : x.Readable) (hactive : d.sections.active = some .device)
    (hspells : Spells (Item.device x).symbols c.lexemes []) :
    ∃ s : Declaration, s.Says t x ∧ d.take (c.segmentOver t p) =
      match d.apply (.declaration s) with
      | .ok d' => (none, d')
      | .error fault => (some fault, d) := by
  obtain ⟨hhead, htail⟩ := hcut.spells_iff.mp hspells
  obtain ⟨st, p', hclause, hrun⟩ := (parses_read hover (.device x.kind)).complete
    (p := (c.headPosition p).after c.head.text) ⟨.device x, hx, rfl, rfl, rfl⟩ htail
  have htake : d.take (c.segmentOver t p) = match d.apply st with
      | .ok d' => (none, d')
      | .error fault => (some fault, d) := by
    have hstatement : d.takeStatement (.device x.kind) (c.headPosition p)
        (Lexeme.tokensOver t ((c.headPosition p).after c.head.text) c.tail) = d.apply st := by
      unfold Draft.takeStatement
      rw [if_pos (show d.sections.active = some (Keyword.device x.kind).homeSection from hactive),
        hrun]
    rw [Draft.take_of_keyword? (i := .device x) rfl hhead d t p]
    exact hstatement ▸ rfl
  cases over_of_read (Chunk.knows_tail hknows).2 hrun with
  | connection => cases hclause
  | monitor => cases hclause
  | @declaration s hname =>
    obtain ⟨htext, hkind, hqualifier⟩ := Clause.declare.inj hclause
    refine ⟨s, ⟨?_, hkind, hqualifier⟩, htake⟩
    show s.name = ⟨t.idOf x.name, x.name⟩
    rw [← htext, ← hname.id]

/-- A declaration of a free name that fits declares its device with its setting. -/
theorem Draft.apply_of_fits (hs : s.Says t x) (hfree : d.circuit.device? (t.idOf x.name) = none)
    (hfits : x.Fits) : d.apply (.declaration s) = .ok
      { d with
        circuit := { d.circuit with
          devices := d.circuit.devices.insert (t.idOf x.name)
            (Device.make d.circuit.pins (t.idOf x.name) x.kind x.setting) }
        unused := d.unused.add (t.idOf x.name) } := by
  have hdeclare := Circuit.declare_eq_ok_iff.mpr ⟨hfree, x.setting, hfits.settingFor, rfl⟩
  simp only [apply, hs.name, hs.kind, hs.qualifier, NameTable.word, hdeclare]

/-- A declaration of a free name that does not fit has an invalid qualifier. -/
theorem Draft.apply_of_not_fits (hs : s.Says t x)
    (hfree : d.circuit.device? (t.idOf x.name) = none) (hx : x.Readable) (hfits : ¬x.Fits) :
    d.apply (.declaration s) = .error (declarationFault s .invalidQualifier) := by
  have hdeclare := Circuit.declare_of_invalid hfree (DeviceLine.settingFor_of_not_fits hx hfits)
  simp only [apply, hs.name, hs.kind, hs.qualifier, NameTable.word, hdeclare]

end Declarations

/-! ## Sessions -/

/-- What the declaration of a free name amounts to, from the reading in front of it to the one
behind it. -/
structure Reading.Sets (r r' : Reading) (id : NameId) (x : DeviceLine) : Prop where
  /-- A declaration is accepted just if its numeral is in the range of its kind. -/
  accepts : r'.log = r.log ↔ x.Fits
  /-- The device is there under its name, set to what the numeral says. -/
  device : x.Fits → ∃ d, r'.circuit.device? id = some d ∧ d.kind = x.kind ∧ d.setting = x.setting
  /-- A declaration out of range has one error, and declares nothing. -/
  rejects : ¬x.Fits → r'.circuit = r.circuit ∧
    ∃ d, r'.log.diagnostics = r.log.diagnostics ++ [d]

theorem Reading.sets_takeSegment {r : Reading} {g : Segment} {stream : TokenStream} {t : NameTable}
    {s : Declaration} {x : DeviceLine} (hs : s.Says t x) (hx : x.Readable)
    (hfree : r.circuit.device? (t.idOf x.name) = none)
    (htake : r.draft.take g = match r.draft.apply (.declaration s) with
      | .ok d' => (none, d')
      | .error fault => (some fault, r.draft)) :
    r.Sets (r.takeSegment g stream) (t.idOf x.name) x := by
  have hcircuit : (r.takeSegment g stream).circuit = (r.draft.take g).2.circuit := rfl
  by_cases hfits : x.Fits
  · rw [Draft.apply_of_fits hs hfree hfits] at htake
    have hlog : (r.takeSegment g stream).log = r.log :=
      log_takeSegment_eq_iff.mpr (congrArg Prod.fst htake)
    rw [htake] at hcircuit
    refine ⟨iff_of_true hlog hfits, fun _ => ⟨Device.make r.circuit.pins (t.idOf x.name) x.kind
      x.setting, ?_, rfl, rfl⟩, fun h => absurd hfits h⟩
    rw [hcircuit]
    unfold Circuit.device?
    rw [SortedMap.get?_insert, if_pos rfl]
    rfl
  · rw [Draft.apply_of_not_fits hs hfree hx hfits] at htake
    have hfault := congrArg Prod.fst htake
    rw [htake] at hcircuit
    refine ⟨iff_of_false (fun hlog => ?_) hfits, fun h => absurd h hfits,
      fun _ => ⟨hcircuit, exists_diagnostic_takeSegment hfault stream⟩⟩
    rw [log_takeSegment_eq_iff.mp hlog] at hfault
    cases hfault

namespace Session

/-- **A declaration that can be read is declared as it is written**, wherever it stands in the
device section of a definition. -/
theorem exists_take_read {words : List String} {commands : List Command} {source : String}
    {limit : Option Nat} {gs : List Segment} {r : Reading} {x : DeviceLine} {rest : List Lexeme}
    (h : (((start words).runAll commands).read source limit).Passes gs r)
    (hx : x.Readable) (hactive : r.draft.sections.active = some .device)
    (hspells : Spells (Item.device x).symbols r.stream.pending rest) :
    ∃ g stream t s, r.stream.segment? = some (g, stream) ∧ stream.pending = rest ∧
      t.idOf x.name = stream.names.idOf x.name ∧ Declaration.Says t s x ∧
      r.draft.take g = match r.draft.apply (.declaration s) with
        | .ok d' => (none, d')
        | .error fault => (some fault, r.draft) := by
  have hreads := (Reading.reads_start source _ _ limit).passes h
  obtain ⟨hover, -⟩ := (consistent_reachable words commands).passes h
  obtain ⟨c, stream, hg, hrest, hcut, hspells, hknows, hle⟩ :=
    TokenStream.exists_chunk_of_spells hreads.sound hspells
  obtain ⟨s, hs, htake⟩ := Draft.exists_take_declaration (p := r.stream.position)
    (hover.of_le r.stream.names_le_allNames) hcut (hknows.of_le hle) hx hactive hspells
  -- The names of the whole source give the name the same id, for it is in the chunk.
  have hmem : x.name ∈ stream.names.names :=
    hknows.of_word (hspells.mem_of_mem (by simp [Item.symbols, Item.tail, Symbol.word]))
  exact ⟨_, stream, _, s, hg, hrest, NameTable.idOf_of_le hle hmem, hs, htake⟩

/-- **A declaration is accepted just if its numeral is in range**, by the number that the digits
spell, and then the device is set to that number: in every session, and wherever the declaration
stands in the device section of a definition that is read there. It is one turn of the parser. -/
theorem sets_read (words : List String) (commands : List Command) (source : String)
    (limit : Option Nat) {gs : List Segment} {r : Reading}
    (h : (((start words).runAll commands).read source limit).Passes gs r) {kind : DeviceKind}
    {name digits : String} {rest : List Lexeme} (hkind : kind.qualifierForm?.isSome = true)
    (hname : name ∉ Vocabulary.words) (hactive : r.draft.sections.active = some .device)
    (hspells : Spells (Item.device ⟨kind, name, some digits⟩).symbols r.stream.pending rest) :
    ∃ g stream, r.stream.segment? = some (g, stream) ∧ stream.pending = rest ∧
      (((start words).runAll commands).read source limit).Continues r (r.takeSegment g stream) ∧
      (r.circuit.device? (stream.names.idOf name) = none →
        r.Sets (r.takeSegment g stream) (stream.names.idOf name) ⟨kind, name, some digits⟩) := by
  have hx : (DeviceLine.mk kind name (some digits)).Readable := ⟨hname, hkind.symm⟩
  obtain ⟨g, stream, t, s, hg, hrest, hid, hs, htake⟩ := exists_take_read h hx hactive hspells
  refine ⟨g, stream, hg, hrest, continues_read h hg, fun hfree => ?_⟩
  rw [← hid] at hfree ⊢
  exact Reading.sets_takeSegment hs hx hfree htake

/-- The period of a clock is the value of its digits, whatever zeros stand in front. -/
theorem sets_read_clock :
    let r := ((start []).runAll []).read "DEVICE: CLOCK a = 0000000000000000000004294967295;" none
    let line := DeviceLine.mk .clock "a" (some "0000000000000000000004294967295")
    ∃ gs last g stream id device, r.Passes gs last ∧
      Spells (Item.device line).symbols last.stream.pending stream.pending ∧
      last.stream.segment? = some (g, stream) ∧
      r.Continues last (last.takeSegment g stream) ∧
      (last.takeSegment g stream).log = last.log ∧
      (last.takeSegment g stream).circuit.device? id = some device ∧
      device.setting = .period 4294967295 := by
  intro r line
  let last := r.behindFirst
  obtain ⟨gs, hpasses⟩ := Reading.exists_passes_behindFirst (r := r) rfl
  have hpending : last.stream.pending = [.blank [' '], .word "CLOCK".toList, .blank [' '],
      .word "a".toList, .blank [' '], .mark '=', .blank [' '],
      .numeral "0000000000000000000004294967295".toList, .mark ';'] := by decide +kernel
  have hspells : Spells (Item.device line).symbols last.stream.pending [] := by
    rw [hpending]
    exact spells_declaration .clock "a" _ []
  have hname : "a" ∉ Vocabulary.words := by decide +kernel
  have hkind : DeviceKind.clock.qualifierForm?.isSome = true := rfl
  obtain ⟨g, stream, hg, hrest, hcontinues, hsets⟩ := sets_read [] [] _ none hpasses hkind hname
    (by decide +kernel) hspells
  have hempty : last.circuit.devices.isEmpty = true := by decide +kernel
  have hfree (id : NameId) : last.circuit.device? id = none :=
    SortedMap.isEmpty_iff.mp hempty id
  have hfits : line.Fits := by
    show 1 ≤ Numeral.value _ ∧ Numeral.value _ < 2 ^ 32
    decide +kernel
  have hsets := hsets (hfree _)
  obtain ⟨device, hdevice, -, hsetting⟩ := hsets.device hfits
  refine ⟨gs, last, g, stream, _, device, hpasses, hrest ▸ hspells, hg, hcontinues,
    hsets.accepts.mpr hfits, hdevice, hsetting.trans ?_⟩
  decide +kernel

end Session

end Netlist
