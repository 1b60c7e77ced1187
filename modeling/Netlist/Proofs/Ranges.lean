import Netlist.Proofs.Numerals
import Netlist.Proofs.Scanning
import Netlist.Report

/-!
# What the message about a number says

A number out of range is reported with a message that says what was expected: a number of inputs
from 1 to 16, a state 0 or 1, a period larger than 0, levels 0 and 1. The message and the range are
stated apart. They agree on every numeral, of any length, but for the periods: a period has to fit
into a 32-bit word too, and the message does not say so.

## Results

* `QualifierForm.inRange_iff`: a range is what its message asks for, up to the largest word for a
  period.
* `Session.ranges_read`: **when the message about a number is reported, and when it is true.**
-/

namespace Netlist

/-! ## Digits -/

/-- The digits up to 1 are the levels of a signal. -/
theorem Numeral.digitValue_le_one_iff {c : Char} (hc : c.isDigit = true) :
    digitValue c ≤ 1 ↔ c = '0' ∨ c = '1' := by
  have hlow : 48 ≤ c.toNat := by
    delta Char.isDigit at hc
    simp only [Bool.and_eq_true, decide_eq_true_eq] at hc
    exact hc.1
  have hdigit (d : Char) : c = d ↔ c.toNat = d.toNat :=
    ⟨congrArg Char.toNat, fun h => Char.ext (UInt32.toNat.inj h)⟩
  rw [hdigit, hdigit]
  show c.toNat - 48 ≤ 1 ↔ c.toNat = 48 ∨ c.toNat = 49
  omega

namespace Lexeme

/-- A numeral of a text has digits only, and one at least. -/
theorem isNumber_of_mem_ofText {cs ds : List Char} (h : .numeral ds ∈ ofText cs) : IsNumber ds := by
  fun_induction ofText cs with
  | case1 => cases h
  | case2 c cs ih =>
    rcases List.mem_cons.mp h with hfirst | h
    · unfold first at hfirst
      split at hfirst
      · cases hfirst
      · split at hfirst
        · cases hfirst
        · split at hfirst
          · rename_i hc
            rw [Lexeme.numeral.inj hfirst]
            exact (longest_number hc cs).fits
          · split at hfirst <;> cases hfirst
    · exact ih h

end Lexeme

/-! ## Messages and ranges -/

namespace QualifierForm

/-- What the message about an invalid number asks of a numeral. -/
def Asks (form : QualifierForm) (ds : String) : Prop :=
  match form with
  | .inputCount => 1 ≤ Numeral.value ds.toList ∧ Numeral.value ds.toList ≤ 16
  | .switchState => Numeral.value ds.toList = 0 ∨ Numeral.value ds.toList = 1
  | .clockPeriod | .rcPeriod => 0 < Numeral.value ds.toList
  | .waveform => ∀ c ∈ ds.toList, Numeral.digitValue c ≤ 1

/-- Whether a numeral is a period that a 32-bit word has no room for. -/
def PastWord (form : QualifierForm) (ds : String) : Prop :=
  (form = .clockPeriod ∨ form = .rcPeriod) ∧ 2 ^ 32 ≤ Numeral.value ds.toList

variable {form : QualifierForm} {ds : String}

/-- A period past the largest word is what the message asks for. -/
theorem PastWord.asks (h : form.PastWord ds) : form.Asks ds := by
  obtain ⟨hform, hvalue⟩ := h
  have hpos : 0 < Numeral.value ds.toList := Nat.lt_of_lt_of_le (by decide) hvalue
  rcases hform with rfl | rfl <;> exact hpos

/-- **A range is what its message asks for**, up to the largest word for a period. -/
theorem inRange_iff (hds : IsNumber ds.toList) :
    form.InRange ds ↔ form.Asks ds ∧ ¬form.PastWord ds := by
  cases form with
  | inputCount | switchState => simp [InRange, Asks, PastWord]
  | clockPeriod | rcPeriod => simp [InRange, Asks, PastWord, Nat.pos_iff_ne_zero,
      Nat.one_le_iff_ne_zero]
  | waveform =>
    have hlevels : (∀ c ∈ ds.toList, c = '0' ∨ c = '1') ↔
        ∀ c ∈ ds.toList, Numeral.digitValue c ≤ 1 :=
      forall₂_congr fun c hc => (Numeral.digitValue_le_one_iff (hds.2 c hc)).symm
    have hpast : ¬PastWord .waveform ds := fun h => by rcases h.1 with h | h <;> cases h
    unfold InRange Asks
    rw [and_iff_right hds.1, and_iff_left hpast, hlevels]

end QualifierForm

/-! ## Declarations -/

namespace Reading

/-- The message about an invalid number is what is reported, from the reading `r` to `r'`. -/
def Warns (r r' : Reading) (form : QualifierForm) : Prop :=
  ∃ excerpt, r'.log.diagnostics =
    r.log.diagnostics ++ [⟨r.log.count + 1, form.invalidMessage, excerpt⟩]

/-- What is reported about the numeral of a declaration, from the reading in front of it to the one
behind it. -/
structure Ranges (r r' : Reading) (form : QualifierForm) (ds : String) : Prop where
  /-- The message is reported if the numeral is not what it asks for, and for a period past the
  largest word. -/
  warns_iff : r.Warns r' form ↔ ¬form.Asks ds ∨ form.PastWord ds
  /-- Otherwise nothing is. -/
  silent : ¬r.Warns r' form → r'.log = r.log
  /-- The message says why it is reported just if the numeral is no period past the largest word. -/
  truthful_iff : (r.Warns r' form ↔ ¬form.Asks ds) ↔ ¬form.PastWord ds

variable {r : Reading} {g : Segment} {stream : TokenStream} {t : NameTable} {s : Declaration}
  {x : DeviceLine} {form : QualifierForm} {ds : String}

/-- The declaration of a free name has the message if it does not fit, and nothing otherwise. -/
theorem warns_takeSegment_iff (hs : s.Says t x) (hx : x.Readable)
    (hform : x.kind.qualifierForm? = some form)
    (hfree : r.circuit.device? (t.idOf x.name) = none)
    (htake : r.draft.take g = match r.draft.apply (.declaration s) with
      | .ok d' => (none, d')
      | .error fault => (some fault, r.draft)) :
    (r.Warns (r.takeSegment g stream) form ↔ ¬x.Fits) ∧
      (x.Fits → (r.takeSegment g stream).log = r.log) := by
  by_cases hfits : x.Fits
  · rw [Draft.apply_of_fits hs hfree hfits] at htake
    have hsilent : (r.takeSegment g stream).log = r.log :=
      log_takeSegment_eq_iff.mpr (congrArg Prod.fst htake)
    refine ⟨iff_of_false ?_ fun h => h hfits, fun _ => hsilent⟩
    rintro ⟨excerpt, hwarns⟩
    rw [hsilent] at hwarns
    exact absurd hwarns.symm (by simp)
  · rw [Draft.apply_of_not_fits hs hfree hx hfits] at htake
    refine ⟨iff_of_true ?_ hfits, fun h => absurd h hfits⟩
    have hmessage : (Draft.declarationFault s .invalidQualifier).problem.message =
        form.invalidMessage := by
      rw [Draft.declarationFault, hs.kind, hform]
      rfl
    rw [Warns, log_takeSegment, htake, ← hmessage]
    exact ⟨_, rfl⟩

/-- **The message is reported where the range says so**, and this is what it asks for or not. -/
theorem ranges_of_warns_iff {r' : Reading} (hkind : x.kind.qualifierForm? = some form)
    (hqualifier : x.qualifier = some ds) (hds : IsNumber ds.toList)
    (h : (r.Warns r' form ↔ ¬x.Fits) ∧ (x.Fits → r'.log = r.log)) : r.Ranges r' form ds := by
  have hfits : x.Fits ↔ form.Asks ds ∧ ¬form.PastWord ds := by
    rw [DeviceLine.fits_iff_inRange, hkind, hqualifier]
    exact QualifierForm.inRange_iff hds
  have hwarns : r.Warns r' form ↔ ¬form.Asks ds ∨ form.PastWord ds := by
    rw [h.1, hfits, not_and_or, not_not]
  refine ⟨hwarns, fun hn => h.2 (not_not.mp (mt h.1.mpr hn)), ?_⟩
  rw [hwarns]
  constructor
  · exact fun htrue hpast => htrue.mp (.inr hpast) hpast.asks
  · exact fun hn => or_iff_left hn

end Reading

/-! ## Sessions -/

namespace Session

variable {source : String} {r : Reading} {x : DeviceLine} {rest : List Lexeme}

/-- A numeral that is spelled in a source has digits only. -/
theorem isNumber_of_spells (hreads : r.Reads source) {ds : String}
    (hqualifier : x.qualifier = some ds)
    (hspells : Spells (Item.device x).symbols r.stream.pending rest) : IsNumber ds.toList := by
  have hmem : .numeral ds.toList ∈ r.stream.pending := hspells.mem_of_mem (by
    simp [Item.symbols, Item.tail, hqualifier, Symbol.numeral])
  obtain ⟨ls, hls, -⟩ := hreads.left
  have htext : .numeral ds.toList ∈ Lexeme.ofText source.toList :=
    hls ▸ List.mem_append_right ls hmem
  exact Lexeme.isNumber_of_mem_ofText htext

/-- **When the message about a number is reported, and when it is true**: in every session, and
wherever the declaration of a free name stands in the device section of a definition that is read
there, whatever its digits are. The declaration is one turn of the parser. -/
theorem ranges_read (words : List String) (commands : List Command) (source : String)
    (limit : Option Nat) {gs : List Segment} {r : Reading}
    (h : (((start words).runAll commands).read source limit).Passes gs r) {kind : DeviceKind}
    {form : QualifierForm} {name digits : String} {rest : List Lexeme}
    (hform : kind.qualifierForm? = some form) (hname : name ∉ Vocabulary.words)
    (hactive : r.draft.sections.active = some .device)
    (hspells : Spells (Item.device ⟨kind, name, some digits⟩).symbols r.stream.pending rest) :
    ∃ g stream, r.stream.segment? = some (g, stream) ∧ stream.pending = rest ∧
      (((start words).runAll commands).read source limit).Continues r (r.takeSegment g stream) ∧
      (r.circuit.device? (stream.names.idOf name) = none →
        r.Ranges (r.takeSegment g stream) form digits) := by
  have hx : (DeviceLine.mk kind name (some digits)).Readable :=
    ⟨hname, (congrArg Option.isSome hform).symm⟩
  obtain ⟨g, stream, t, s, hg, hrest, hid, hs, htake⟩ := exists_take_read h hx hactive hspells
  refine ⟨g, stream, hg, hrest, continues_read h hg, fun hfree => ?_⟩
  have hdigits := isNumber_of_spells ((Reading.reads_start source _ _ limit).passes h) rfl hspells
  exact Reading.ranges_of_warns_iff hform rfl hdigits
    (Reading.warns_takeSegment_iff hs hx hform (hid ▸ hfree) htake)

/-- A period that even a 64-bit word has no room for: it is larger than 0, as the message asks. -/
theorem ranges_read_rc :
    let r := ((start []).runAll []).read "DEVICE: RC a = 18446744073709551616;" none
    let line := DeviceLine.mk .rc "a" (some "18446744073709551616")
    ∃ gs last g stream, r.Passes gs last ∧
      Spells (Item.device line).symbols last.stream.pending stream.pending ∧
      last.stream.segment? = some (g, stream) ∧
      r.Continues last (last.takeSegment g stream) ∧
      last.Warns (last.takeSegment g stream) .rcPeriod ∧
      QualifierForm.rcPeriod.Asks "18446744073709551616" := by
  intro r line
  let last := r.behindFirst
  obtain ⟨gs, hpasses⟩ := Reading.exists_passes_behindFirst (r := r) rfl
  have hpending : last.stream.pending = [.blank [' '], .word "RC".toList, .blank [' '],
      .word "a".toList, .blank [' '], .mark '=', .blank [' '],
      .numeral "18446744073709551616".toList, .mark ';'] := by decide +kernel
  have hspells : Spells (Item.device line).symbols last.stream.pending [] := by
    rw [hpending]
    exact spells_declaration .rc "a" _ []
  have hname : "a" ∉ Vocabulary.words := by decide +kernel
  have hform : DeviceKind.rc.qualifierForm? = some .rcPeriod := rfl
  obtain ⟨g, stream, hg, hrest, hcontinues, hranges⟩ := ranges_read [] [] _ none hpasses hform hname
    (by decide +kernel) hspells
  have hempty : last.circuit.devices.isEmpty = true := by decide +kernel
  have hfree (id : NameId) : last.circuit.device? id = none :=
    SortedMap.isEmpty_iff.mp hempty id
  have hpast : QualifierForm.rcPeriod.PastWord "18446744073709551616" :=
    ⟨.inr rfl, by decide +kernel⟩
  exact ⟨gs, last, g, stream, hpasses, hrest ▸ hspells, hg, hcontinues,
    (hranges (hfree _)).warns_iff.mpr (.inr hpast), hpast.asks⟩

end Session

/-- The first period past the largest 32-bit word is reported as not larger than 0. -/
theorem warns_check_clock :
    (check "DEVICE: CLOCK a = 4294967296; CONNECTION: MONITOR: MON a;" none).diagnostics.map
        Diagnostic.message =
      ["Expect clock period to be larger than 0", "The device 'a' is not defined"] ∧
    QualifierForm.clockPeriod.Asks "4294967296" := by
  refine ⟨by decide +kernel, ?_⟩
  show 0 < Numeral.value "4294967296".toList
  decide +kernel

end Netlist
