import Netlist.Proofs.Parsing

/-!
# Which statements are read

A statement, by names and without positions, is a clause. Over a circuit, each reader of statements
parses the clauses that the grammar spells and that name outputs and inputs of the circuit; if the
circuit depicts a blueprint, these are the outputs and inputs of the blueprint.

## Results

* `parses_readDeclaration`, `parses_readConnection`, `parses_readMonitor`: the statements of each
  kind.
* `parses_read`: **a statement is read as the grammar spells it.**
* `Circuit.Depicts.parses_read`: the same over a circuit that depicts a blueprint.
-/

namespace Netlist

/-! ## Clauses -/

/-- What a statement says, by names and without positions. -/
inductive Clause
  | declare (name : String) (kind : DeviceKind) (qualifier : Option Qualifier)
  | connect (w : Wire)
  | monitor (o : OutputName)
deriving DecidableEq, Repr

/-- The clause of a declaration. -/
def Declaration.clause (s : Declaration) : Clause :=
  .declare s.name.text s.kind (s.qualifier.map Prod.fst)

/-- The clause of a statement. -/
def Statement.clause : Statement → Clause
  | .declaration s => s.clause
  | .connection s => .connect s.wire
  | .monitor m => .monitor m.outputName

/-- The qualifier of a declaration: its digits, read in the form of its kind. -/
def DeviceLine.value (x : DeviceLine) : Option Qualifier :=
  match x.kind.qualifierForm?, x.qualifier with
  | some form, some digits => some (form.ofNumeral digits)
  | _, _ => none

/-- The clause that a declaration spells. -/
def DeviceLine.clause (x : DeviceLine) : Clause := .declare x.name x.kind x.value

/-- Whether a declaration can be read: its name is not reserved, and its qualifier is there if its
kind takes one. -/
structure DeviceLine.Readable (x : DeviceLine) : Prop where
  unreserved : x.name ∉ Vocabulary.words
  qualified : x.qualifier.isSome = x.kind.qualifierForm?.isSome

theorem DeviceLine.clause_of_unqualified {kind : DeviceKind} (h : kind.qualifierForm? = none)
    (name : String) : (DeviceLine.mk kind name none).clause = .declare name kind none := by
  simp only [clause, value, h]

theorem DeviceLine.clause_of_qualified {kind : DeviceKind} {form : QualifierForm}
    (h : kind.qualifierForm? = some form) (name digits : String) :
    (DeviceLine.mk kind name (some digits)).clause =
      .declare name kind (some (form.ofNumeral digits)) := by
  simp only [clause, value, h]

/-! ## Readers of statements -/

section Readers

open Statement TokenReader

variable {t : NameTable}

theorem parses_readName : Parses t readName Prod.fst fun ps w =>
    ∃ name : String, name ∉ Vocabulary.words ∧ w = t.word name ∧ ps = [.word name] := by
  refine parses_expect.congr fun ps w => ?_
  simp only [name?_kindOver_iff]
  constructor
  · rintro ⟨l, -, ⟨name, hn, rfl, rfl⟩, rfl⟩
    exact ⟨name, hn, rfl, rfl⟩
  · rintro ⟨name, hn, rfl, rfl⟩
    exact ⟨.word name.toList, rfl, ⟨name, hn, rfl, rfl⟩, rfl⟩

theorem parses_readStop : Parses t readStop id fun ps _ => ps = [.mark ';'] := by
  unfold readStop
  refine ((parses_sign (k := .semicolon) rfl _).behind fun _ => .pure ()).congr fun ps _ => ?_
  constructor
  · rintro ⟨_, ⟨rfl, -⟩, rfl⟩
    rfl
  · rintro rfl
    exact ⟨[], ⟨rfl, rfl⟩, rfl⟩

/-- The `;` at the end of a statement that is made. -/
theorem parses_stopped {α β : Type} (a : α) (erase : α → β) :
    Parses t (do readStop; Pure.pure a) erase fun ps b => b = erase a ∧ ps = [.mark ';'] := by
  refine (parses_readStop.behind fun _ => .pure a).congr fun ps b => ?_
  constructor
  · rintro ⟨_, ⟨rfl, rfl⟩, rfl⟩
    exact ⟨rfl, rfl⟩
  · rintro ⟨rfl, rfl⟩
    exact ⟨[], ⟨rfl, rfl⟩, rfl⟩

theorem parses_number (form : QualifierForm) :
    Parses t (expect TokenKind.number? (.numberExpected form)) Prod.fst fun ps w =>
      ∃ digits : String, w = t.word digits ∧ ps = [.numeral digits] := by
  refine parses_expect.congr fun ps w => ?_
  simp only [number?_kindOver_iff]
  constructor
  · rintro ⟨l, -, ⟨digits, rfl, rfl⟩, rfl⟩
    exact ⟨digits, rfl, rfl⟩
  · rintro ⟨digits, rfl, rfl⟩
    exact ⟨.numeral digits.toList, rfl, ⟨digits, rfl, rfl⟩, rfl⟩

theorem parses_readQualifier (form : QualifierForm) :
    Parses t (readQualifier form) Prod.fst fun ps q =>
      ∃ digits : String, q = form.ofNumeral digits ∧ ps = [.mark '=', .numeral digits] := by
  unfold readQualifier
  refine ((parses_sign (k := .equal) rfl _).behind fun _ =>
    (parses_number form).map (fun a => (form.ofNumeral a.1.text, a.2)) Prod.fst
      (fun w => form.ofNumeral w.text) fun _ => rfl).congr fun ps q => ?_
  constructor
  · rintro ⟨_, ⟨_, ⟨digits, rfl, rfl⟩, rfl⟩, rfl⟩
    exact ⟨digits, rfl, rfl⟩
  · rintro ⟨digits, rfl, rfl⟩
    exact ⟨_, ⟨_, ⟨digits, rfl, rfl⟩, rfl⟩, rfl⟩

/-- The qualifier of a declaration, and the `;` behind it. -/
theorem parses_qualifierStop (kind : DeviceKind) (form : QualifierForm) (w : Word) (p : Position) :
    Parses t (do
        let q ← readQualifier form
        readStop
        Pure.pure (Declaration.mk kind w p (some q))) Declaration.clause
      fun ps clause => ∃ digits : String,
        clause = .declare w.text kind (some (form.ofNumeral digits)) ∧
          ps = [.mark '=', .numeral digits, .mark ';'] := by
  refine ((parses_readQualifier form).bind (M := fun q ps clause =>
    clause = .declare w.text kind (some q) ∧ ps = [.mark ';'])
    fun q => parses_stopped (Declaration.mk kind w p (some q)) _).congr fun ps clause => ?_
  constructor
  · rintro ⟨_, _, _, ⟨digits, rfl, rfl⟩, ⟨rfl, rfl⟩, rfl⟩
    exact ⟨digits, rfl, rfl⟩
  · rintro ⟨digits, rfl, rfl⟩
    exact ⟨_, _, _, ⟨digits, rfl, rfl⟩, ⟨rfl, rfl⟩, rfl⟩

/-- **A declaration is read if its qualifier is there for a kind that takes one.** -/
theorem parses_readDeclaration (kind : DeviceKind) :
    Parses t (readDeclaration kind) Declaration.clause fun ps clause =>
      ∃ x : DeviceLine, x.Readable ∧ x.kind = kind ∧ clause = x.clause ∧
        ps = (Item.device x).tail := by
  unfold readDeclaration
  cases hform : kind.qualifierForm? with
  | none =>
    refine (parses_readName.bind (M := fun w ps clause =>
      clause = .declare w.text kind none ∧ ps = [.mark ';'])
      fun a => parses_stopped (Declaration.mk kind a.1 a.2 none) _).congr fun ps clause => ?_
    constructor
    · rintro ⟨_, _, _, ⟨name, hn, rfl, rfl⟩, ⟨rfl, rfl⟩, rfl⟩
      exact ⟨⟨kind, name, none⟩, ⟨hn, by rw [hform]; rfl⟩, rfl,
        (DeviceLine.clause_of_unqualified hform name).symm, rfl⟩
    · rintro ⟨⟨_, name, qualifier⟩, ⟨hn, hq⟩, rfl, rfl, rfl⟩
      rw [hform, Option.isSome_none, Option.isSome_eq_false_iff, Option.isNone_iff_eq_none] at hq
      cases hq
      exact ⟨_, _, _, ⟨name, hn, rfl, rfl⟩,
        ⟨DeviceLine.clause_of_unqualified hform name, rfl⟩, rfl⟩
  | some form =>
    refine (parses_readName.bind (M := fun w ps clause => ∃ digits : String,
      clause = .declare w.text kind (some (form.ofNumeral digits)) ∧
        ps = [.mark '=', .numeral digits, .mark ';'])
      fun a => parses_qualifierStop kind form a.1 a.2).congr fun ps clause => ?_
    constructor
    · rintro ⟨_, _, _, ⟨name, hn, rfl, rfl⟩, ⟨digits, rfl, rfl⟩, rfl⟩
      exact ⟨⟨kind, name, some digits⟩, ⟨hn, by rw [hform]; rfl⟩, rfl,
        (DeviceLine.clause_of_qualified hform name digits).symm, rfl⟩
    · rintro ⟨⟨_, name, qualifier⟩, ⟨hn, hq⟩, rfl, rfl, rfl⟩
      rw [hform, Option.isSome_some] at hq
      obtain ⟨digits, rfl⟩ := Option.isSome_iff_exists.mp hq
      exact ⟨_, _, _, ⟨name, hn, rfl, rfl⟩,
        ⟨digits, DeviceLine.clause_of_qualified hform name digits, rfl⟩, rfl⟩

/-! ### Over a circuit -/

variable {c : Circuit}

/-- The name of a declared device. -/
theorem parses_readDevice (c : Circuit) :
    Parses t (readDevice c) (fun a => (a.1, a.2.1)) fun ps b =>
      ∃ name : String, name ∉ Vocabulary.words ∧ b.1 = t.word name ∧
        c.device? (t.idOf name) = some b.2 ∧ ps = [.word name] := by
  unfold readDevice
  refine (parses_readName.bind (M := fun w ps (b : Word × Device) =>
    ps = [] ∧ w = b.1 ∧ c.device? w.id = some b.2) fun ⟨w, p⟩ => ?_).congr fun ps b => ?_
  · simp only
    cases hd : c.device? w.id with
    | none => exact (Parses.throw _).congr fun ps b => by simp
    | some device =>
      refine (Parses.pure (w, device, p)).congr fun ps b => ?_
      simp only [Prod.ext_iff, Option.some.injEq, eq_comm]
  · constructor
    · rintro ⟨_, _, _, ⟨name, hn, rfl, rfl⟩, ⟨rfl, hw, hd⟩, rfl⟩
      exact ⟨name, hn, hw.symm, hd, rfl⟩
    · rintro ⟨name, hn, hw, hd, rfl⟩
      exact ⟨_, _, [], ⟨name, hn, rfl, rfl⟩, ⟨rfl, hw.symm, hd⟩, rfl⟩

theorem dtypeOutput?_kindOver_iff (h : c.Over t) {l : Lexeme} {w : Word} :
    dtypeOutput? c (l.kindOver t) = some w ↔
      ∃ pin ∈ Pin.dtypeOutputWords, w = t.word pin ∧ l = .word pin.toList := by
  have hcontains (pin : String) : c.pins.dtypeOutputs.contains (t.word pin).id =
      decide (pin ∈ Pin.dtypeOutputWords) := h.contains_dtypeOutputs pin
  unfold dtypeOutput?
  rw [Option.filter_eq_some_iff, pin?_kindOver_iff]
  constructor
  · rintro ⟨⟨pin, -, rfl, rfl⟩, hc⟩
    rw [hcontains] at hc
    exact ⟨pin, of_decide_eq_true hc, rfl, rfl⟩
  · rintro ⟨pin, hp, rfl, rfl⟩
    exact ⟨⟨pin, List.mem_append_right _ hp, rfl, rfl⟩,
      (hcontains pin).trans (decide_eq_true hp)⟩

/-- A reader of a token that accepts some words parses these words. -/
theorem parses_wordOf {f : TokenKind → Option Word} {words : List String}
    (hf : ∀ {l : Lexeme} {w : Word}, f (l.kindOver t) = some w ↔
      ∃ pin ∈ words, w = t.word pin ∧ l = .word pin.toList) (problem : Problem) :
    Parses t (expectRaw f problem) Prod.fst fun ps w =>
      ∃ pin ∈ words, w = t.word pin ∧ ps = [⟨.word pin.toList, true⟩] := by
  refine parses_expectRaw.congr fun ps w => ?_
  simp only [hf]
  constructor
  · rintro ⟨l, ⟨pin, hp, rfl, rfl⟩, rfl⟩
    exact ⟨pin, hp, rfl, rfl⟩
  · rintro ⟨pin, hp, rfl, rfl⟩
    exact ⟨_, ⟨pin, hp, rfl, rfl⟩, rfl⟩

theorem parses_dtypeOutput (h : c.Over t) (problem : Problem) :
    Parses t (expectRaw (dtypeOutput? c) problem) Prod.fst fun ps w =>
      ∃ pin ∈ Pin.dtypeOutputWords, w = t.word pin ∧ ps = [⟨.word pin.toList, true⟩] :=
  parses_wordOf (dtypeOutput?_kindOver_iff h) problem

/-- The pin behind the name of a D-type. -/
theorem parses_qualified (h : c.Over t) (name : Word) (problem problem' : Problem) :
    Parses t (do
        let _ ← expectRaw (TokenKind.only .dot) problem
        let a ← expectRaw (dtypeOutput? c) problem'
        Pure.pure (OutputMention.mk name (some a.1) a.2)) OutputMention.outputName
      fun ps o => ∃ pin ∈ Pin.dtypeOutputWords, o = ⟨name.text, some pin⟩ ∧
        ps = Symbol.qualified pin := by
  refine ((parses_signRaw (k := .dot) rfl _).behind fun _ => (parses_dtypeOutput h problem').map
    (fun a => OutputMention.mk name (some a.1) a.2) OutputMention.outputName
      (fun w => ⟨name.text, some w.text⟩) fun _ => rfl).congr fun ps o => ?_
  constructor
  · rintro ⟨_, ⟨_, ⟨pin, hp, rfl, rfl⟩, rfl⟩, rfl⟩
    exact ⟨pin, hp, rfl, rfl⟩
  · rintro ⟨pin, hp, rfl, rfl⟩
    exact ⟨_, ⟨_, ⟨pin, hp, rfl, rfl⟩, rfl⟩, rfl⟩

theorem mem_outputWords_iff {kind : DeviceKind} {pin : Option String} :
    pin ∈ kind.outputWords ↔
      (kind = .dtype ∧ ∃ w ∈ Pin.dtypeOutputWords, pin = some w) ∨
        (kind ≠ .dtype ∧ pin = none) := by
  by_cases hk : kind = .dtype
  · rw [hk]
    simp [DeviceKind.outputWords, Pin.dtypeOutputWords]
  · have hwords : kind.outputWords = [none] := by cases kind <;> first | rfl | exact absurd rfl hk
    rw [hwords, List.mem_singleton]
    simp [hk]

/-- Whether a circuit has an output, by its words. -/
def Circuit.HasOutput (t : NameTable) (c : Circuit) (o : OutputName) : Prop :=
  ∃ d, c.device? (t.idOf o.device) = some d ∧ o.pin ∈ d.kind.outputWords

/-- Whether a circuit has an input, by its words. -/
def Circuit.HasInput (t : NameTable) (c : Circuit) (device pin : String) : Prop :=
  pin ∈ Pin.words ∧ ∃ d, c.device? (t.idOf device) = some d ∧ d.hasInput (t.idOf pin) = true

/-- **An output is read if the circuit has it.** -/
theorem parses_readOutput (h : c.Over t) :
    Parses t (readOutput c) OutputMention.outputName fun ps o =>
      c.HasOutput t o ∧ o.device ∉ Vocabulary.words ∧ ps = o.symbols := by
  unfold readOutput
  refine ((parses_readDevice c).bind (M := fun b ps (o : OutputName) =>
    (b.2.kind = .dtype ∧ ∃ pin ∈ Pin.dtypeOutputWords, o = ⟨b.1.text, some pin⟩ ∧
        ps = Symbol.qualified pin) ∨
      (b.2.kind ≠ .dtype ∧ o = ⟨b.1.text, none⟩ ∧ ps = []))
    fun ⟨name, device, p⟩ => ?_).congr fun ps o => ?_
  · simp only
    split
    · rename_i hk
      exact (parses_qualified h name _ _).congr fun ps o => by simp [hk]
    · rename_i hk
      refine (Parses.pure (OutputMention.mk name none p)).congr fun ps o => ?_
      simp only [hk, false_and, not_false_eq_true, true_and, false_or, ne_eq]
      exact and_comm
  · unfold Circuit.HasOutput
    simp only [mem_outputWords_iff]
    constructor
    · rintro ⟨⟨_, device⟩, _, rs, ⟨name, hn, rfl, hd, rfl⟩, hp, rfl⟩
      rcases hp with ⟨hk, pin, hp, rfl, rfl⟩ | ⟨hk, rfl, rfl⟩
      · exact ⟨⟨device, hd, .inl ⟨hk, pin, hp, rfl⟩⟩, hn, rfl⟩
      · exact ⟨⟨device, hd, .inr ⟨hk, rfl⟩⟩, hn, rfl⟩
    · obtain ⟨name, pin⟩ := o
      rintro ⟨⟨device, hd, hp⟩, hn, rfl⟩
      refine ⟨(t.word name, device), _, _, ⟨name, hn, rfl, hd, rfl⟩, ?_, rfl⟩
      rcases hp with ⟨hk, w, hw, rfl⟩ | ⟨hk, rfl⟩
      · exact .inl ⟨hk, w, hw, rfl, rfl⟩
      · exact .inr ⟨hk, rfl, rfl⟩

/-- The token behind an output is read as if nothing were said about a dot. -/
theorem runOn_readBehind_eq_ok_iff {σ : Type} [TokenSource σ] (m : OutputMention) {k : TokenKind}
    (hk : k ≠ .dot) (problem : Problem) (s s' : σ) :
    (readBehind m k problem).runOn s = (.ok (), s') ↔
      ∃ a, (expect (TokenKind.only k) problem).runOn s = (.ok a, s') := by
  unfold readBehind
  rw [runOn_bind, runOn_next, runOn_expect]
  simp only
  split
  · rename_i hdot
    obtain ⟨u, hu, hud⟩ := Option.map_eq_some_iff.mp hdot.2
    have hnone : TokenKind.only k u.kind = none := if_neg (hud ▸ hk.symm)
    refine iff_of_false (fun h => by cases (Prod.mk.inj h).1) ?_
    rintro ⟨a, h⟩
    rw [hu, fitted, hnone] at h
    cases (Prod.mk.inj h).1
  · rw [runOn_bind, runOn_fit]
    cases fitted (TokenKind.only k) problem (TokenSource.next s).1 with
    | error fault => simp
    | ok a =>
      show (Except.ok (), _) = _ ↔ _
      simp

theorem parses_readBehind (m : OutputMention) {k : TokenKind} {sign : Lexeme}
    (hk : k.sign? = some sign) (hdot : k ≠ .dot) (problem : Problem) :
    Parses t (readBehind m k problem) id fun ps _ => ps = [⟨sign, false⟩] where
  sound hx := by
    obtain ⟨a, ha⟩ := (runOn_readBehind_eq_ok_iff m hdot problem _ _).mp hx
    exact (parses_sign hk problem).sound ha
  complete hg hs := by
    obtain ⟨a, p', -, ha⟩ := (parses_sign hk problem).complete (b := ()) hg hs
    exact ⟨(), p', rfl, (runOn_readBehind_eq_ok_iff m hdot problem _ _).mpr ⟨a, ha⟩⟩

theorem parses_pin (problem : Problem) :
    Parses t (expectRaw TokenKind.pin? problem) Prod.fst fun ps w =>
      ∃ pin ∈ Pin.words, w = t.word pin ∧ ps = [⟨.word pin.toList, true⟩] :=
  parses_wordOf pin?_kindOver_iff problem

/-- **A monitor is read if the circuit has the output.** -/
theorem parses_readMonitor (h : c.Over t) :
    Parses t (readMonitor c) OutputMention.outputName fun ps o =>
      c.HasOutput t o ∧ o.device ∉ Vocabulary.words ∧ ps = (Item.monitor o).tail := by
  unfold readMonitor
  have hstop : ∀ m : OutputMention, Parses t
      (readBehind m .semicolon .stopExpected >>= fun _ => Pure.pure m)
      OutputMention.outputName fun ps o => o = m.outputName ∧ ps = [.mark ';'] := by
    intro m
    refine ((parses_readBehind m (k := .semicolon) rfl (by decide) _).behind fun _ =>
      .pure m).congr fun ps o => ?_
    constructor
    · rintro ⟨_, ⟨rfl, rfl⟩, rfl⟩
      exact ⟨rfl, rfl⟩
    · rintro ⟨rfl, rfl⟩
      exact ⟨[], ⟨rfl, rfl⟩, rfl⟩
  refine ((parses_readOutput h).bind (M := fun o' ps o => o = o' ∧ ps = [.mark ';'])
    hstop).congr fun ps o => ?_
  constructor
  · rintro ⟨_, _, _, ⟨ho, hn, rfl⟩, ⟨rfl, rfl⟩, rfl⟩
    exact ⟨ho, hn, rfl⟩
  · rintro ⟨ho, hn, rfl⟩
    exact ⟨_, _, _, ⟨ho, hn, rfl⟩, ⟨rfl, rfl⟩, rfl⟩

/-- The pin of an input, and the end of a connection. -/
theorem parses_sink (source : OutputMention) (name : Word) (device : Device) :
    Parses t (do
        let _ ← expectRaw (TokenKind.only .dot) .inputDotExpected
        let (pin, pinPosition) ← expectRaw TokenKind.pin? .inputPinExpected
        if !device.hasInput pin.id then
          throw ⟨.notAnInput pin.text name.text, .token pinPosition⟩
        readStop
        Pure.pure (Connection.mk source name pin pinPosition)) Connection.wire
      fun ps w => w.source = source.outputName ∧ w.device = name.text ∧ w.pin ∈ Pin.words ∧
        device.hasInput (t.idOf w.pin) = true ∧ ps = Symbol.qualified w.pin ++ [.mark ';'] := by
  have hend : ∀ (pin : Word) (q : Position), Parses t (do
        if !device.hasInput pin.id then
          throw ⟨.notAnInput pin.text name.text, .token q⟩
        readStop
        Pure.pure (Connection.mk source name pin q)) Connection.wire
      fun ps w => device.hasInput pin.id = true ∧
        w = ⟨source.outputName, name.text, pin.text⟩ ∧ ps = [.mark ';'] := by
    intro pin q
    cases device.hasInput pin.id with
    | false => exact (Parses.throw _).congr fun ps w => by simp
    | true =>
      refine (parses_stopped (Connection.mk source name pin q) _).congr fun ps w => ?_
      exact (and_iff_right rfl).symm
  have hpin : Parses t (do
        let (pin, pinPosition) ← expectRaw TokenKind.pin? .inputPinExpected
        if !device.hasInput pin.id then
          throw ⟨.notAnInput pin.text name.text, .token pinPosition⟩
        readStop
        Pure.pure (Connection.mk source name pin pinPosition)) Connection.wire
      fun ps w => w.source = source.outputName ∧ w.device = name.text ∧ w.pin ∈ Pin.words ∧
        device.hasInput (t.idOf w.pin) = true ∧
          ps = [⟨.word w.pin.toList, true⟩, .mark ';'] := by
    refine ((parses_pin _).bind (M := fun (pin : Word) ps w => device.hasInput pin.id = true ∧
      w = Wire.mk source.outputName name.text pin.text ∧ ps = [.mark ';'])
      fun ⟨pin, q⟩ => hend pin q).congr fun ps w => ?_
    constructor
    · rintro ⟨_, _, _, ⟨pin, hp, rfl, rfl⟩, ⟨hi, rfl, rfl⟩, rfl⟩
      exact ⟨rfl, rfl, hp, hi, rfl⟩
    · obtain ⟨output, device, pin⟩ := w
      rintro ⟨rfl, rfl, hp, hi, rfl⟩
      exact ⟨_, _, _, ⟨pin, hp, rfl, rfl⟩, ⟨hi, rfl, rfl⟩, rfl⟩
  refine ((parses_signRaw (k := .dot) rfl _).behind fun _ => hpin).congr fun ps w => ?_
  constructor
  · rintro ⟨_, ⟨hs, hd, hp, hi, rfl⟩, rfl⟩
    exact ⟨hs, hd, hp, hi, rfl⟩
  · rintro ⟨hs, hd, hp, hi, rfl⟩
    exact ⟨_, ⟨hs, hd, hp, hi, rfl⟩, rfl⟩

/-- **A connection is read if the circuit has the output and the input.** -/
theorem parses_readConnection (h : c.Over t) :
    Parses t (readConnection c) Connection.wire fun ps w =>
      (c.HasOutput t w.source ∧ w.source.device ∉ Vocabulary.words) ∧
        (c.HasInput t w.device w.pin ∧ w.device ∉ Vocabulary.words) ∧
          ps = (Item.connection w).tail := by
  unfold readConnection
  refine ((parses_readOutput h).bind (M := fun o ps w => ∃ rs, (w.source = o ∧
    (c.HasInput t w.device w.pin ∧ w.device ∉ Vocabulary.words) ∧
      rs = Symbol.word w.device :: (Symbol.qualified w.pin ++ [.mark ';'])) ∧ ps = [.arrow] ++ rs)
    fun source => (parses_readBehind source (k := .arrow) rfl (by decide) _).behind fun _ =>
      ?_).congr fun ps w => ?_
  · refine (Parses.bind (parses_readDevice c) (M := fun b ps (w : Wire) =>
      w.source = source.outputName ∧ w.device = b.1.text ∧ w.pin ∈ Pin.words ∧
        b.2.hasInput (t.idOf w.pin) = true ∧ ps = Symbol.qualified w.pin ++ [.mark ';'])
      ?_).congr fun ps w => ?_
    · rintro ⟨name, device, _⟩
      exact parses_sink source name device
    obtain ⟨output, device, pin⟩ := w
    constructor
    · rintro ⟨⟨_, d⟩, _, _, ⟨name, hn, rfl, hd, rfl⟩, ⟨rfl, rfl, hp, hi, rfl⟩, rfl⟩
      exact ⟨rfl, ⟨⟨hp, d, hd, hi⟩, hn⟩, rfl⟩
    · rintro ⟨rfl, ⟨⟨hp, d, hd, hi⟩, hn⟩, rfl⟩
      exact ⟨(t.word device, d), _, _, ⟨device, hn, rfl, hd, rfl⟩, ⟨rfl, rfl, hp, hi, rfl⟩, rfl⟩
  constructor
  · rintro ⟨_, _, _, ⟨ho, hn, rfl⟩, ⟨_, ⟨rfl, hi, rfl⟩, rfl⟩, rfl⟩
    exact ⟨⟨ho, hn⟩, hi, rfl⟩
  · rintro ⟨⟨ho, hn⟩, hi, rfl⟩
    exact ⟨_, _, _, ⟨ho, hn, rfl⟩, ⟨_, ⟨rfl, hi, rfl⟩, rfl⟩, rfl⟩

/-! ### Statements -/

/-- The clause that an item spells, if it is a statement. -/
def Item.clause? : Item → Option Clause
  | .title _ => none
  | .device x => some x.clause
  | .connection w => some (.connect w)
  | .monitor o => some (.monitor o)

/-- Whether an item can be read as a statement over a circuit. -/
def Item.ReadableOver (t : NameTable) (c : Circuit) : Item → Prop
  | .title _ => False
  | .device x => x.Readable
  | .connection w => (c.HasOutput t w.source ∧ w.source.device ∉ Vocabulary.words) ∧
      (c.HasInput t w.device w.pin ∧ w.device ∉ Vocabulary.words)
  | .monitor o => c.HasOutput t o ∧ o.device ∉ Vocabulary.words

/-- **A statement is read as the grammar spells it.** -/
theorem parses_read (h : c.Over t) (k : Keyword) :
    Parses t (Statement.read c k) Statement.clause fun ps clause =>
      ∃ i : Item, i.ReadableOver t c ∧ i.keyword? = some k ∧ i.clause? = some clause ∧
        ps = i.tail := by
  cases k with
  | device kind =>
    refine ((parses_readDeclaration kind).map Statement.declaration Statement.clause id
      fun _ => rfl).congr fun ps clause => ?_
    constructor
    · rintro ⟨_, ⟨x, hx, rfl, rfl, rfl⟩, rfl⟩
      exact ⟨.device x, hx, rfl, rfl, rfl⟩
    · rintro ⟨i, hi, hk, hc, rfl⟩
      cases i with
      | device x =>
        cases hk
        cases hc
        exact ⟨_, ⟨x, hi, rfl, rfl, rfl⟩, rfl⟩
      | _ => cases hk
  | connect =>
    refine ((parses_readConnection h).map Statement.connection Statement.clause Clause.connect
      fun _ => rfl).congr fun ps clause => ?_
    constructor
    · rintro ⟨w, ⟨ho, hi, rfl⟩, rfl⟩
      exact ⟨.connection w, ⟨ho, hi⟩, rfl, rfl, rfl⟩
    · rintro ⟨i, hi, hk, hc, rfl⟩
      cases i with
      | connection w =>
        cases hc
        exact ⟨w, ⟨hi.1, hi.2, rfl⟩, rfl⟩
      | _ => cases hk
  | monitor =>
    refine ((parses_readMonitor h).map Statement.monitor Statement.clause Clause.monitor
      fun _ => rfl).congr fun ps clause => ?_
    constructor
    · rintro ⟨o, ⟨ho, hn, rfl⟩, rfl⟩
      exact ⟨.monitor o, ⟨ho, hn⟩, rfl, rfl, rfl⟩
    · rintro ⟨i, hi, hk, hc, rfl⟩
      cases i with
      | monitor o =>
        cases hc
        exact ⟨o, ⟨hi.1, hi.2, rfl⟩, rfl⟩
      | _ => cases hk

/-! ### Over a blueprint -/

variable {B : Blueprint}

/-- Whether an item can be read as a statement over a blueprint. -/
def Item.Readable (B : Blueprint) : Item → Prop
  | .title _ => False
  | .device x => x.Readable
  | .connection w => (B.HasOutput w.source ∧ w.source.device ∉ Vocabulary.words) ∧
      (B.HasInput w.device w.pin ∧ w.device ∉ Vocabulary.words)
  | .monitor o => B.HasOutput o ∧ o.device ∉ Vocabulary.words

namespace Circuit.Depicts

theorem toOver (h : c.Depicts t B) : c.Over t := ⟨h.pins, h.reserved⟩

theorem hasOutput_iff (h : c.Depicts t B) {o : OutputName} : c.HasOutput t o ↔ B.HasOutput o := by
  unfold Circuit.HasOutput Blueprint.HasOutput
  simp only [h.device?_idOf, Option.map_eq_some_iff, h.coherent.part?_eq_some_iff]
  constructor
  · rintro ⟨_, ⟨x, ⟨hx, hn⟩, rfl⟩, hp⟩
    exact ⟨x, hx, hn, B.kind_deviceOver t x ▸ hp⟩
  · rintro ⟨x, hx, hn, hp⟩
    exact ⟨_, ⟨x, ⟨hx, hn⟩, rfl⟩, (B.kind_deviceOver t x).symm ▸ hp⟩

theorem hasInput_iff (h : c.Depicts t B) {device pin : String} :
    c.HasInput t device pin ↔ B.HasInput device pin := by
  unfold Circuit.HasInput Blueprint.HasInput
  simp only [h.device?_idOf, Option.map_eq_some_iff, h.coherent.part?_eq_some_iff]
  constructor
  · rintro ⟨-, _, ⟨x, ⟨hx, hn⟩, rfl⟩, hi⟩
    exact ⟨x, hx, hn, (h.hasInput_deviceOver hx pin).mp hi⟩
  · rintro ⟨x, hx, hn, hi⟩
    exact ⟨DeviceKind.mem_words_of_mem_inputWords (h.coherent.admitted x hx) hi, _,
      ⟨x, ⟨hx, hn⟩, rfl⟩, (h.hasInput_deviceOver hx pin).mpr hi⟩

theorem readable_iff (h : c.Depicts t B) {i : Item} : i.ReadableOver t c ↔ i.Readable B := by
  cases i with
  | connection w =>
    exact and_congr (and_congr_left' h.hasOutput_iff) (and_congr_left' h.hasInput_iff)
  | monitor o => exact and_congr_left' h.hasOutput_iff
  | _ => exact Iff.rfl

theorem parses_read (h : c.Depicts t B) (k : Keyword) :
    Parses t (Statement.read c k) Statement.clause fun ps clause =>
      ∃ i : Item, i.Readable B ∧ i.keyword? = some k ∧ i.clause? = some clause ∧ ps = i.tail :=
  (Netlist.parses_read h.toOver k).congr fun ps clause => by simp only [h.readable_iff]

end Circuit.Depicts

end Readers

end Netlist
