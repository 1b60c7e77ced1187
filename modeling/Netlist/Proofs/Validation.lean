import Netlist.Proofs.Outline
import Netlist.Proofs.Pointing

/-!
# Statements and direct calls

A statement is checked twice: while it is read, against the devices declared so far, and again by
the circuit that carries it out. What is read is also judged by words, and what is carried out by
identifiers. The two agree: a statement is accepted just if the call on the circuit that says the
same is, and then it does what the call does.

## Results

* `Item.eq_of_spells`: lexemes spell one statement at most.
* `Item.readableOver_of_call`: what a call accepts can be read.
* `Draft.takeStatement_eq_call`: a statement does to a circuit what the call does.
* `Session.judges_read`: **a statement is accepted just if the direct call is.**
-/

namespace Netlist

open Lexeme (tokensOver splitStop)

/-! ## Direct calls -/

/-- The qualifier of a declaration, for a call: the digits for a signal generator, and their value
for any other kind. -/
def DeviceLine.asked (x : DeviceLine) : Option Qualifier :=
  x.qualifier.map fun digits =>
    if x.kind = .siggen then .sequence digits else .value (Numeral.wordValue digits.toList)

/-- The circuit behind the call that says what a statement says; none if the call is refused. -/
def Item.call (t : NameTable) (c : Circuit) : Item → Option Circuit
  | .title _ => none
  | .device x => (c.declare (t.idOf x.name) x.kind x.asked).toOption
  | .connection w => (c.connect (w.source.over t) ⟨t.idOf w.device, t.idOf w.pin⟩).toOption
  | .monitor o => (c.monitor (o.over t)).toOption

/-- Whether an output is written with a name that is not reserved, and a word for its pin. -/
structure OutputName.Plain (o : OutputName) : Prop where
  device : o.device ∉ Vocabulary.words
  pin : ∀ pin ∈ o.pin, pin ∈ Pin.words

/-- Whether a statement is written with names that are not reserved, and words for pins. -/
def Item.Plain : Item → Prop
  | .title _ => False
  | .device x => x.name ∉ Vocabulary.words
  | .connection w => w.source.Plain ∧ w.device ∉ Vocabulary.words ∧ w.pin ∈ Pin.words
  | .monitor o => o.Plain

/-! ## What a call accepts can be read -/

section Call

variable {t t' : NameTable} {c c' : Circuit} {i j : Item}

/-- The outputs of a device are those of its words. -/
theorem Device.MadeOver.hasOutput_iff {id : NameId} {d : Device} (h : d.MadeOver t id)
    {pin : Option String} (hpin : ∀ w ∈ pin, w ∈ t.names) :
    d.hasOutput (pin.map t.idOf) = true ↔ pin ∈ d.kind.outputWords := by
  have hmap : Function.Injective (Option.map (some : String → Option String)) :=
    Option.map_injective (Option.some_injective _)
  have htext : ∀ o : Option NameId, o.map t.text? = pin.map some ↔ o = pin.map t.idOf := by
    intro o
    cases pin with
    | none => simp
    | some w =>
      have hw : w ∈ t.names := hpin w rfl
      cases o with
      | none => simp
      | some id =>
        simp only [Option.map_some, Option.some.injEq]
        rw [← NameTable.idOf_eq_iff_text? hw, eq_comm]
  unfold Device.hasOutput
  rw [List.contains_iff_mem, ← List.mem_map_of_injective hmap, ← h.outputs, List.mem_map]
  simp only [htext, exists_eq_right]

theorem OutputName.Plain.known (hover : c.Over t) {o : OutputName} (ho : o.Plain) :
    ∀ w ∈ o.pin, w ∈ t.names := fun w hw => hover.words w (ho.pin w hw)

/-- A declaration has a setting only if its qualifier is there for a kind that takes one. -/
theorem DeviceLine.isSome_of_settingFor {x : DeviceLine} {setting : Setting}
    (h : x.kind.settingFor x.asked = some setting) :
    x.qualifier.isSome = x.kind.qualifierForm?.isSome := by
  unfold DeviceKind.settingFor asked at h
  cases hq : x.qualifier <;> cases hform : x.kind.qualifierForm? <;> rw [hq, hform] at h <;>
    first | rfl | cases h

/-- **What a call accepts can be read.** -/
theorem Item.readableOver_of_call (hover : c.Over t) (h : c.Consistent t) (hi : i.Plain)
    (hcall : i.call t c = some c') : i.ReadableOver t c := by
  cases i with
  | title s => cases hcall
  | device x =>
    have hok : c.declare (t.idOf x.name) x.kind x.asked = .ok c' :=
      Blueprint.toOption_eq_some_iff.mp hcall
    obtain ⟨-, setting, hsetting, -⟩ := Circuit.declare_eq_ok_iff.mp hok
    exact ⟨hi, DeviceLine.isSome_of_settingFor hsetting⟩
  | connection w =>
    obtain ⟨hsource, hdevice, hpin⟩ := hi
    have hok : c.connect (w.source.over t) ⟨t.idOf w.device, t.idOf w.pin⟩ = .ok c' :=
      Blueprint.toOption_eq_some_iff.mp hcall
    obtain ⟨driver, driven, hd, ho, hs, hf, -⟩ := Circuit.connect_eq_ok_iff.mp hok
    have hin : driven.hasInput (t.idOf w.pin) = true := SortedMap.contains_iff.mpr ⟨_, hf⟩
    exact ⟨⟨⟨driver, hd, ((h.devices hd).hasOutput_iff (hsource.known hover)).mp ho⟩,
      hsource.device⟩, ⟨hpin, driven, hs, hin⟩, hdevice⟩
  | monitor o =>
    have hok : c.monitor (o.over t) = .ok c' := Blueprint.toOption_eq_some_iff.mp hcall
    obtain ⟨device, hd, ho, -, -⟩ := Circuit.monitor_eq_ok_iff.mp hok
    exact ⟨⟨device, hd, ((h.devices hd).hasOutput_iff (OutputName.Plain.known hover hi)).mp ho⟩,
      hi.device⟩

/-! ## What is read is carried out -/

/-- Carries out a clause on a circuit. -/
def Circuit.carry (t : NameTable) (c : Circuit) : Clause → Option Circuit
  | .declare name kind qualifier => (c.declare (t.idOf name) kind qualifier).toOption
  | .connect w => (c.connect (w.source.over t) ⟨t.idOf w.device, t.idOf w.pin⟩).toOption
  | .monitor o => (c.monitor (o.over t)).toOption

theorem DeviceLine.Readable.value_eq {x : DeviceLine} (h : x.Readable) : x.value = x.asked := by
  obtain ⟨kind, name, qualifier⟩ := x
  obtain ⟨-, hq⟩ := h
  cases qualifier with
  | none =>
    unfold value asked
    split <;> first | rfl | contradiction
  | some digits => cases kind <;> first | rfl | cases hq

/-- A statement that can be read says what its call says. -/
theorem Item.call_eq_carry (hi : i.ReadableOver t c) {clause : Clause}
    (hclause : i.clause? = some clause) : i.call t c = c.carry t clause := by
  cases i with
  | title s => cases hi
  | device x =>
    cases hclause
    unfold call DeviceLine.clause Circuit.carry
    rw [hi.value_eq]
  | _ => cases hclause; rfl

/-- A statement does what its clause says. -/
theorem Draft.apply_eq_carry {d : Draft} {st : Statement} (h : st.Over t) :
    (d.apply st).toOption.map Draft.circuit = d.circuit.carry t st.clause := by
  cases h with
  | @declaration s name =>
    simp only [apply, Statement.clause, Declaration.clause, Circuit.carry, name.id]
    cases d.circuit.declare (t.idOf s.name.text) s.kind (s.qualifier.map Prod.fst) <;> rfl
  | @connection s source device pin =>
    simp only [apply, Statement.clause, Circuit.carry, Connection.wire, Connection.sink,
      source.output, device.id, pin.id]
    cases d.circuit.connect (s.source.outputName.over t)
      ⟨t.idOf s.device.text, t.idOf s.pin.text⟩ <;> rfl
  | @monitor m output =>
    simp only [apply, Statement.clause, Circuit.carry, output.output]
    cases d.circuit.monitor (m.outputName.over t) <;> rfl

end Call

/-! ## Lexemes spell one statement -/

section Spells

variable {i j : Item} {k : Keyword} {ps : List Symbol} {ls rest rest' : List Lexeme}

/-- White space apart, what is spelled are the lexemes of the symbols. -/
theorem Spells.filter (h : Spells ps ls rest) (hps : ∀ p ∈ ps, p.lexeme.isBlank = false) :
    ls.filter (!·.isBlank) = ps.map Symbol.lexeme ++ rest.filter (!·.isBlank) := by
  induction h with
  | nil => rfl
  | @spaced l ps bs ls rest hb _ ih =>
    obtain ⟨hl, hps⟩ := List.forall_mem_cons.mp hps
    have hbs : bs.filter (!·.isBlank) = [] :=
      List.filter_eq_nil_iff.mpr fun b hm => by simp [hb b hm]
    rw [List.filter_append, hbs, List.nil_append, List.filter_cons_of_pos (by simpa using hl),
      ih hps]
    rfl
  | @glued l ps ls rest _ ih =>
    obtain ⟨hl, hps⟩ := List.forall_mem_cons.mp hps
    rw [List.filter_cons_of_pos (by simpa using hl), ih hps]
    rfl

/-- No symbol of an item is white space. -/
theorem Item.not_blank_of_mem_tail (i : Item) : ∀ p ∈ i.tail, p.lexeme.isBlank = false := by
  have hoption (o : OutputName) : ∀ p ∈ o.symbols, p.lexeme.isBlank = false := by
    obtain ⟨device, pin⟩ := o
    cases pin <;>
      simp [OutputName.symbols, Symbol.qualified, Symbol.word, Lexeme.isBlank]
  cases i with
  | title s => simp [tail, Symbol.mark, Lexeme.isBlank]
  | device x =>
    obtain ⟨kind, name, qualifier⟩ := x
    cases qualifier <;> simp [tail, Symbol.mark, Symbol.word, Symbol.numeral, Lexeme.isBlank]
  | connection w =>
    simp only [tail, List.mem_append, List.mem_cons, or_imp, forall_and]
    exact ⟨hoption _, by simp [Symbol.arrow, Symbol.word, Symbol.qualified, Symbol.mark,
      Lexeme.isBlank]⟩
  | monitor o =>
    simp only [tail, List.mem_append, or_imp, forall_and]
    exact ⟨hoption o, by simp [Symbol.mark, Lexeme.isBlank]⟩

/-- The lexemes of an output tell the output. -/
theorem OutputName.eq_of_symbols {o o' : OutputName} {ms ms' : List Lexeme}
    (hms : ms.head? ≠ some (.mark '.')) (hms' : ms'.head? ≠ some (.mark '.'))
    (h : o.symbols.map Symbol.lexeme ++ ms = o'.symbols.map Symbol.lexeme ++ ms') :
    o = o' ∧ ms = ms' := by
  obtain ⟨device, pin⟩ := o
  obtain ⟨device', pin'⟩ := o'
  obtain ⟨hdevice, hrest⟩ := List.cons.inj h
  obtain rfl : device = device' := String.toList_injective (Lexeme.word.inj hdevice)
  cases pin with
  | none =>
    cases pin' with
    | none => exact ⟨rfl, hrest⟩
    | some w' =>
      obtain rfl : ms = .mark '.' :: .word w'.toList :: ms' := hrest
      exact absurd rfl hms
  | some w =>
    cases pin' with
    | none =>
      obtain rfl : .mark '.' :: .word w.toList :: ms = ms' := hrest
      exact absurd rfl hms'
    | some w' =>
      obtain ⟨hw, hms⟩ := List.cons.inj (List.cons.inj hrest).2
      rw [String.toList_injective (Lexeme.word.inj hw)]
      exact ⟨rfl, hms⟩

/-- The lexemes of a statement tell the statement. -/
theorem Item.eq_of_tail (hi : i.keyword? = some k) (hj : j.keyword? = some k)
    (h : i.tail.map Symbol.lexeme = j.tail.map Symbol.lexeme) : i = j := by
  cases k with
  | device kind =>
    cases i with
    | device x =>
      cases j with
      | device y =>
        obtain ⟨kind, name, qualifier⟩ := x
        obtain ⟨kind', name', qualifier'⟩ := y
        cases hi
        cases hj
        cases qualifier <;> cases qualifier' <;>
          simp_all [tail, Symbol.word, Symbol.numeral, Symbol.mark, String.toList_inj]
      | _ => cases hj
    | _ => cases hi
  | connect =>
    cases i with
    | connection w =>
      cases j with
      | connection v =>
        obtain ⟨source, device, pin⟩ := w
        obtain ⟨source', device', pin'⟩ := v
        simp only [tail, List.map_append] at h
        obtain ⟨rfl, hrest⟩ := OutputName.eq_of_symbols (by simp [Symbol.arrow])
          (by simp [Symbol.arrow]) h
        simp_all [Symbol.word, Symbol.qualified, String.toList_inj]
      | _ => cases hj
    | _ => cases hi
  | monitor =>
    cases i with
    | monitor o =>
      cases j with
      | monitor o' =>
        simp only [tail, List.map_append] at h
        rw [(OutputName.eq_of_symbols (by simp [Symbol.mark]) (by simp [Symbol.mark]) h).1]
      | _ => cases hj
    | _ => cases hi

/-- **Lexemes spell one statement at most.** -/
theorem Item.eq_of_spells (hi : i.keyword? = some k) (hj : j.keyword? = some k)
    (h : Spells i.tail ls rest) (h' : Spells j.tail ls rest') : i = j := by
  have hfilter := (h.filter i.not_blank_of_mem_tail).symm.trans (h'.filter j.not_blank_of_mem_tail)
  have hcut {i : Item} (hi : i.keyword? = some k) (ms : List Lexeme) :
      splitStop (i.tail.map Symbol.lexeme ++ ms) = (i.tail.map Symbol.lexeme, ms) := by
    obtain ⟨ps, htail, hps⟩ := exists_tail hi
    have hstop : .mark ';' ∉ ps.map Symbol.lexeme := fun hm => by
      obtain ⟨p, hp, he⟩ := List.mem_map.mp hm
      exact hps p hp he
    rw [htail, List.map_append, List.append_assoc]
    exact splitStop_append_stop hstop
  -- Both end at the first `;`.
  have hsplit := congrArg splitStop hfilter
  rw [hcut hi, hcut hj] at hsplit
  exact eq_of_tail hi hj (Prod.mk.inj hsplit).1

end Spells

/-! ## Statements -/

section Statements

variable {t t' : NameTable} {d : Draft} {i : Item} {k : Keyword} {q q' p : Position}
  {ls : List Lexeme} {c : Chunk}

/-- **A statement does to a circuit what the call does**, and has a fault if the call is refused. -/
theorem Draft.takeStatement_eq_call (hover : d.circuit.Over t) (h : d.circuit.Consistent t)
    (hknows : t.Knows ls) (hi : i.Plain) (hkey : i.keyword? = some k)
    (hactive : d.sections.active = some k.homeSection) (hspells : Spells i.tail ls []) :
    (d.takeStatement k q (tokensOver t q' ls)).toOption.map Draft.circuit =
      i.call t d.circuit := by
  unfold Draft.takeStatement
  rw [if_pos hactive]
  by_cases hread : i.ReadableOver t d.circuit
  · obtain ⟨clause, hclause⟩ : ∃ clause, i.clause? = some clause := by
      cases i with
      | title s => cases hkey
      | _ => exact ⟨_, rfl⟩
    obtain ⟨st, p', rfl, hrun⟩ :=
      (parses_read hover k).complete (p := q') ⟨i, hread, hkey, hclause, rfl⟩ hspells
    rw [hrun, Item.call_eq_carry hread hclause]
    exact Draft.apply_eq_carry (over_of_read hknows hrun)
  · have hcall : i.call t d.circuit = none := Option.eq_none_iff_forall_ne_some.mpr
      fun c' hc => hread (Item.readableOver_of_call hover h hi hc)
    rw [hcall]
    cases hrun : (Statement.read d.circuit k).runOn (tokensOver t q' ls) with
    | mk answer ts =>
      cases answer with
      | error fault => rfl
      | ok st =>
        -- What was read instead is spelled by the same lexemes.
        obtain ⟨_, rest, p', ⟨j, hj, hkey', -, rfl⟩, hspells', -⟩ :=
          (parses_read hover k).sound hrun
        rw [Item.eq_of_spells hkey hkey' hspells hspells'] at hread
        exact absurd hj hread

/-- A segment that spells a statement does to a circuit what the call does. -/
theorem Draft.take_eq_call (hover : d.circuit.Over t) (h : d.circuit.Consistent t) (hcut : c.Cut)
    (hknows : t.Knows c.lexemes) (hi : i.Plain) (hkey : i.keyword? = some k)
    (hactive : d.sections.active = some k.homeSection) (hspells : Spells i.symbols c.lexemes []) :
    ((d.take (c.segmentOver t p)).1 = none ↔ (i.call t d.circuit).isSome = true) ∧
      (d.take (c.segmentOver t p)).2.circuit = (i.call t d.circuit).getD d.circuit := by
  obtain ⟨hhead, htail⟩ := hcut.spells_iff.mp hspells
  rw [Draft.take_of_keyword? hkey hhead, ← Draft.takeStatement_eq_call hover h
    (Chunk.knows_tail hknows).2 hi hkey hactive htail]
  cases d.takeStatement k (c.headPosition p)
    (tokensOver t ((c.headPosition p).after c.head.text) c.tail) with
  | ok d' => exact ⟨iff_of_true rfl rfl, rfl⟩
  | error fault => exact ⟨iff_of_false nofun nofun, rfl⟩

theorem NameTable.Knows.of_word {ls : List Lexeme} (h : t.Knows ls) {w : String}
    (hw : .word w.toList ∈ ls) : w ∈ t.names :=
  h w (List.mem_flatMap.mpr ⟨_, hw, by simp [Lexeme.interned, String.ofList_toList]⟩)

theorem OutputName.over_of_le (hle : t ≤ t') {o : OutputName}
    (h : t.Knows (o.symbols.map Symbol.lexeme)) : o.over t' = o.over t := by
  obtain ⟨device, pin⟩ := o
  have hdevice : device ∈ t.names := h.of_word List.mem_cons_self
  unfold OutputName.over
  rw [NameTable.idOf_of_le hle hdevice]
  cases pin with
  | none => rfl
  | some w =>
    have hw : w ∈ t.names := h.of_word (by simp [symbols, Symbol.qualified])
    rw [Option.map_some, Option.map_some, NameTable.idOf_of_le hle hw]

/-- Words that come later do not change a call. -/
theorem Item.call_of_le (hle : t ≤ t') (h : t.Knows (i.tail.map Symbol.lexeme)) (c : Circuit) :
    i.call t' c = i.call t c := by
  cases i with
  | title s => rfl
  | device x =>
    have hname : x.name ∈ t.names := h.of_word List.mem_cons_self
    simp only [call, NameTable.idOf_of_le hle hname]
  | connection w =>
    have hdevice : w.device ∈ t.names := h.of_word (by simp [tail, Symbol.word])
    have hpin : w.pin ∈ t.names := h.of_word (by simp [tail, Symbol.qualified])
    rw [tail, List.map_append] at h
    simp only [call, OutputName.over_of_le hle h.of_append.1, NameTable.idOf_of_le hle hdevice,
      NameTable.idOf_of_le hle hpin]
  | monitor o =>
    rw [tail, List.map_append] at h
    simp only [call, OutputName.over_of_le hle h.of_append.1]

/-- The lexemes of symbols are among those that spell them. -/
theorem Spells.mem_of_mem {ps : List Symbol} {rest : List Lexeme} (h : Spells ps ls rest)
    {l : Lexeme} (hl : l ∈ ps.map Symbol.lexeme) : l ∈ ls := by
  induction h with
  | nil => cases hl
  | spaced _ _ ih =>
    rcases List.mem_cons.mp hl with rfl | hl
    · exact List.mem_append_right _ List.mem_cons_self
    · exact List.mem_append_right _ (List.mem_cons_of_mem _ (ih hl))
  | glued _ ih =>
    rcases List.mem_cons.mp hl with rfl | hl
    · exact List.mem_cons_self
    · exact List.mem_cons_of_mem _ (ih hl)

end Statements

/-- A statement that is spelled in front of what is left is the next segment. The stream behind it
and the names of the whole source know its lexemes. -/
theorem TokenStream.exists_chunk_of_spells {s : TokenStream} {i : Item} {rest : List Lexeme}
    (h : s.Sound) (hspells : Spells i.symbols s.pending rest) :
    ∃ (c : Chunk) (stream : TokenStream),
      s.segment? = some (c.segmentOver s.allNames s.position, stream) ∧
      stream.pending = rest ∧ c.Cut ∧ Spells i.symbols c.lexemes [] ∧
      stream.names.Knows c.lexemes ∧ stream.names ≤ s.allNames := by
  obtain ⟨c, hc, hspells⟩ := nextChunk?_of_spells hspells
  have hsegment := segment?_eq h NameTable.le_rfl
  rw [hc] at hsegment
  refine ⟨c, s.behind c.lexemes rest, hsegment, rfl, Chunk.cut_of_nextChunk? hc, hspells, ?_, ?_⟩
  · exact fun w hw => NameTable.mem_internAll_iff.mpr (.inr hw)
  · exact interned_le_allNames (Lexeme.lexemes_append_of_nextChunk? hc).symm

/-! ## Sessions -/

/-- In the middle of a definition that is read in a consistent session, the session is consistent. -/
theorem Session.Consistent.passes {s : Session} (h : s.Consistent) {source : String}
    {limit : Option Nat} {gs : List Segment} {r : Reading}
    (hpasses : (s.read source limit).Passes gs r) : (ofReading r).Consistent :=
  h.grown (grown_passes hpasses)

/-- In a session, the loop of the parser takes the next segment of a definition in a turn. -/
theorem Session.continues_read {s : Session} {source : String} {limit : Option Nat}
    {gs : List Segment} {r : Reading} (h : (s.read source limit).Passes gs r) {g : Segment}
    {stream : TokenStream} (hg : r.stream.segment? = some (g, stream)) :
    (s.read source limit).Continues r (r.takeSegment g stream) :=
  h.continues ((Reading.reads_start source _ _ limit).passes h).sound hg

/-- What a statement amounts to, from the reading in front of it to the one behind it, if the call
that says the same ends with the circuit `call`, or none if it is refused. -/
structure Reading.Judges (r r' : Reading) (call : Option Circuit) : Prop where
  /-- A statement is accepted just if the call is. -/
  accepts : r'.log = r.log ↔ call.isSome = true
  /-- A statement that is not accepted has one error. -/
  rejects : call = none → ∃ d, r'.log.diagnostics = r.log.diagnostics ++ [d]
  /-- Devices, connections and monitors are what the call makes of them, and unchanged if it is
  refused. -/
  circuit : r'.circuit = call.getD r.circuit

/-- A segment is accepted just if it has no fault, and has one error otherwise. -/
theorem Reading.judges_takeSegment {r : Reading} {g : Segment} {stream : TokenStream}
    {call : Option Circuit} (haccepts : (r.draft.take g).1 = none ↔ call.isSome = true)
    (hcircuit : (r.draft.take g).2.circuit = call.getD r.circuit) :
    r.Judges (r.takeSegment g stream) call where
  accepts := log_takeSegment_eq_iff.trans haccepts
  rejects hnone := by
    cases hfault : (r.draft.take g).1 with
    | none =>
      have hcall := haccepts.mp hfault
      rw [hnone] at hcall
      cases hcall
    | some fault => exact exists_diagnostic_takeSegment hfault stream
  circuit := hcircuit

/-- **A statement is accepted just if the direct call is**, in every session and wherever it stands
in a definition that is read there, if it stands in its section and is written with names that are
not reserved. It is one turn of the parser. -/
theorem Session.judges_read (words : List String) (commands : List Command) (source : String)
    (limit : Option Nat) {gs : List Segment} {r : Reading}
    (h : (((start words).runAll commands).read source limit).Passes gs r) {i : Item} {k : Keyword}
    {rest : List Lexeme} (hi : i.Plain) (hkey : i.keyword? = some k)
    (hactive : r.draft.sections.active = some k.homeSection)
    (hspells : Spells i.symbols r.stream.pending rest) :
    ∃ g stream, r.stream.segment? = some (g, stream) ∧ stream.pending = rest ∧
      (((start words).runAll commands).read source limit).Continues r (r.takeSegment g stream) ∧
      r.Judges (r.takeSegment g stream) (i.call stream.names r.circuit) := by
  have hreads := (Reading.reads_start source _ _ limit).passes h
  obtain ⟨hover, hconsistent⟩ := (consistent_reachable words commands).passes h
  obtain ⟨c, stream, hg, hrest, hcut, hspells, hknows, hle⟩ :=
    TokenStream.exists_chunk_of_spells hreads.sound hspells
  refine ⟨_, stream, hg, hrest, continues_read h hg, ?_⟩
  have hall := r.stream.names_le_allNames
  have htake := Draft.take_eq_call (p := r.stream.position) (hover.of_le hall)
    (hconsistent.of_le hall) hcut (hknows.of_le hle) hi hkey hactive hspells
  rw [Item.call_of_le hle fun w hw => ?_] at htake
  · exact Reading.judges_takeSegment htake.1 htake.2
  · obtain ⟨l, hl, hw⟩ := List.mem_flatMap.mp hw
    exact hknows w (List.mem_flatMap.mpr ⟨l, hspells.mem_of_mem (List.mem_cons_of_mem _ hl), hw⟩)

/-- A switch has the state 0 or 1: both the statement and the call refuse any other. -/
theorem Session.judges_read_switch :
    let r := ((start []).runAll []).read "DEVICE: SWITCH a = 2;" none
    let statement := Item.device ⟨.switch, "a", some "2"⟩
    ∃ gs last g stream, r.Passes gs last ∧
      Spells statement.symbols last.stream.pending stream.pending ∧
      last.stream.segment? = some (g, stream) ∧
      r.Continues last (last.takeSegment g stream) ∧
      statement.call stream.names last.circuit = none ∧
      last.Judges (last.takeSegment g stream) none := by
  intro r statement
  let last := r.behindFirst
  obtain ⟨gs, hpasses⟩ := Reading.exists_passes_behindFirst (r := r) rfl
  have hpending : last.stream.pending = [.blank [' '], .word "SWITCH".toList, .blank [' '],
      .word "a".toList, .blank [' '], .mark '=', .blank [' '], .numeral "2".toList,
      .mark ';'] := by decide +kernel
  have hspells : Spells statement.symbols last.stream.pending [] := by
    rw [hpending]
    exact spells_declaration .switch "a" "2" []
  have hname : "a" ∉ Vocabulary.words := by decide +kernel
  obtain ⟨g, stream, hg, hrest, hcontinues, hjudges⟩ :=
    judges_read [] [] _ none hpasses (i := statement) (k := .device .switch) hname rfl
      (by decide +kernel) hspells
  have hasked : (DeviceLine.mk .switch "a" (some "2")).asked = some (.value 2) := by
    decide +kernel
  have hcall (c : Circuit) : statement.call stream.names c = none := by
    simp only [statement, Item.call, hasked, Circuit.declare]
    split <;> rfl
  rw [hcall] at hjudges
  exact ⟨gs, last, g, stream, hpasses, hrest ▸ hspells, hg, hcontinues, hcall _, hjudges⟩

end Netlist
