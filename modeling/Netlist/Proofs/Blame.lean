import Netlist.Proofs.Following
import Netlist.Proofs.Validation

/-!
# What a broken statement is blamed for

A statement is reported at the first token that its form does not fit, and no call is made for it
then. If all of its tokens fit, it makes one call on the circuit; what the circuit refuses is
reported at the token that is to blame for it. Either way there is one report, and the draft stays
as it was in front of the statement.

A refusal by the circuit can only be one of four: whatever else a call may be refused for, a
statement that fits its form was read over the same circuit and does not do it.

## Results

* `Draft.carries_apply`: what a statement that fits its form does to a draft.
* `Reading.blames_takeSegment`: a segment with a fault has one report, at the place of the fault.
* `Reading.Reads.treats_takeSegment`: a statement is treated by how its tokens compare with its
  form.
* `Session.blames_read`: **a broken statement is reported at its first fault.**
-/

namespace Netlist

open Lexeme (tokensOver splitStop)

/-! ## The tokens of a statement, and those behind it -/

namespace Lockstep

variable {ts us : List Token}

/-- `us` starts with the tokens `ts`, and goes on behind them only if they have a `;`. -/
def Leads (ts us : List Token) : Prop :=
  ∃ rest, us = ts ++ rest ∧ ((∀ k ∈ ts, k.kind ≠ .semicolon) → rest = [])

theorem nextAlike_leads (h : Leads ts us) :
    NextAlike Eq Leads (fun _ _ => True) True (ts.head?, ts.tail) (us.head?, us.tail) := by
  obtain ⟨rest, rfl, hrest⟩ := h
  cases ts with
  | nil =>
    rw [hrest nofun]
    exact .none trivial trivial
  | cons k ts =>
    obtain ⟨kind, position⟩ := k
    by_cases hk : kind = .semicolon
    · subst hk
      exact .stop trivial
    · exact .token ⟨TokenKind.Like.refl _, rfl⟩ hk
        ⟨rest, rfl, fun hts => hrest (List.forall_mem_cons.mpr ⟨hk, hts⟩)⟩

theorem Leads.dropWhile (h : Leads ts us) :
    Leads (ts.dropWhile (·.kind = .space)) (us.dropWhile (·.kind = .space)) := by
  obtain ⟨rest, rfl, hrest⟩ := h
  have hall (hts : ∀ k ∈ ts.dropWhile (·.kind = .space), k.kind ≠ .semicolon) : rest = [] :=
    hrest (no_semicolon_of_dropWhile hts)
  rw [List.dropWhile_append]
  split
  · rename_i hnil
    rw [List.isEmpty_iff] at hnil
    rw [hall (by rw [hnil]; exact nofun), hnil]
    exact ⟨[], rfl, fun _ => rfl⟩
  · exact ⟨rest, rfl, hall⟩

/-- Tokens beside the same tokens with more behind their `;`. -/
def leading : Lockstep Eq (List Token) (List Token) where
  inside := Leads
  done _ _ := True
  ends := True
  text_eq h := congrArg Word.text h
  next h := nextAlike_leads h.dropWhile
  nextRaw h := nextAlike_leads h

end Lockstep

/-- What comes behind the `;` of a statement does not matter for what is read. -/
theorem Statement.runOn_read_of_leads (c : Circuit) (k : Keyword) {ts us : List Token}
    (h : Lockstep.Leads ts us) : ((read c k).runOn ts).1 = ((read c k).runOn us).1 := by
  have hread := Lockstep.agree_read (L := Lockstep.leading) (.refl c) k h
  generalize (read c k).runOn ts = r at hread ⊢
  generalize (read c k).runOn us = r' at hread ⊢
  cases hread with
  | ok hlike _ => rw [hlike.eq]
  | error _ _ => rfl

/-- The tokens up to the first `;` lead those of the whole input. -/
theorem TokenStream.leads_throughStop {s : TokenStream} (h : s.Sound) :
    Lockstep.Leads s.throughStop.1 s.rawAll.1 := by
  rw [throughStop_eq h NameTable.le_rfl, rawAll_eq h NameTable.le_rfl]
  have hsplit := Lexeme.tokensOver_append (t := s.allNames) (p := s.position)
    (splitStop s.pending).1 (splitStop s.pending).2
  rw [Lexeme.splitStop_append] at hsplit
  refine ⟨_, hsplit, fun hts => ?_⟩
  rw [Chunk.splitStop_snd_of_not_mem fun hm => ?_]
  · rfl
  · obtain ⟨k, hk, hkind⟩ := Lexeme.exists_mem_tokensOver hm
    exact hts k hk (by rw [hkind]; rfl)

/-- The tokens of lexemes are fit to be told by their texts. -/
theorem Circuit.Over.apt {t : NameTable} {c : Circuit} (h : c.Over t) {p : Position}
    {ls : List Lexeme} {k : Token} (hk : k ∈ tokensOver t p ls) : k.Apt c := by
  obtain ⟨as, l, bs, -, rfl⟩ := Lexeme.exists_of_mem_tokensOver hk
  intro w hw
  obtain ⟨pin, -, rfl, -⟩ := pin?_kindOver_iff.mp hw
  exact h.contains_dtypeOutputs pin

/-! ## The call of a statement -/

namespace Statement

/-- The circuit behind the call that a statement makes; none if the call is refused. -/
def call (c : Circuit) : Statement → Option Circuit
  | .declaration s => (c.declare s.name.id s.kind (s.qualifier.map Prod.fst)).toOption
  | .connection s => (c.connect s.source.output s.sink).toOption
  | .monitor m => (c.monitor m.output).toOption

/-- What a circuit refuses a statement for, and the position of the token that is to blame. -/
inductive RefusedAt (c : Circuit) : Statement → Position → Prop
  /-- The name is that of a device already. -/
  | usedName {s : Declaration} {d : Device} (used : c.device? s.name.id = some d) :
      RefusedAt c (.declaration s) s.namePosition
  /-- The name is free, but the number is not one for the kind. -/
  | invalidQualifier {s : Declaration} {q : Qualifier} {p : Position}
      (free : c.device? s.name.id = none) (qualifier : s.qualifier = some (q, p))
      (invalid : s.kind.settingFor (some q) = none) : RefusedAt c (.declaration s) p
  /-- The input has a driver already. -/
  | occupiedInput {s : Connection} {d : Device} {o : Output}
      (device : c.device? s.device.id = some d)
      (driver : d.inputs.get? s.pin.id = some (some o)) :
      RefusedAt c (.connection s) s.pinPosition
  /-- The output is monitored already. -/
  | monitored {m : OutputMention} (monitored : c.monitors.contains m.output = true) :
      RefusedAt c (.monitor m) m.position

end Statement

/-- What carrying out a statement answers: the draft behind the call, or a fault at the token that
is to blame for the refusal. -/
inductive Draft.Carries (d : Draft) (st : Statement) : Except Fault Draft → Prop
  | done {d' : Draft} (call : st.call d.circuit = some d'.circuit) : Carries d st (.ok d')
  | refused {problem : Problem} {p : Position} (call : st.call d.circuit = none)
      (blame : st.RefusedAt d.circuit p) : Carries d st (.error ⟨problem, .token p⟩)

section Carry

variable {t : NameTable} {c : Circuit} {d : Draft}

/-- An output that fits is one of the circuit. -/
theorem OutputMention.Fits.hasOutput {m : OutputMention} (hm : m.Fits c) (hover : c.Over t)
    (h : c.Consistent t) :
    ∃ d, c.device? m.output.device = some d ∧ d.hasOutput m.output.pin = true := by
  obtain ⟨d, hd, hpin⟩ := hm
  refine ⟨d, hd, ?_⟩
  have hmade := h.devices hd
  unfold output
  split at hpin
  · rename_i hkind
    obtain ⟨v, hv, hcontains⟩ := hpin
    rw [hover.pins, List.contains_iff_mem] at hcontains
    obtain ⟨w, hw, hid⟩ := List.mem_map.mp hcontains
    have hknown : ∀ u ∈ some w, u ∈ t.names := fun u hu => by
      cases hu
      exact hover.words w (List.mem_append_right _ hw)
    have hout := (hmade.hasOutput_iff hknown).mpr
      (mem_outputWords_iff.mpr (.inl ⟨hkind, w, hw, rfl⟩))
    rw [Option.map_some, hid] at hout
    rw [hv]
    exact hout
  · rename_i hkind
    have hknown : ∀ u ∈ (none : Option String), u ∈ t.names := nofun
    rw [hpin]
    exact (hmade.hasOutput_iff hknown).mpr (mem_outputWords_iff.mpr (.inr ⟨hkind, rfl⟩))

/-- A kind refuses a qualifier only where there is one, if it is there just for a kind that takes
one. -/
theorem DeviceKind.isSome_of_settingFor_eq_none {kind : DeviceKind} {qualifier : Option Qualifier}
    (h : kind.settingFor qualifier = none)
    (hq : qualifier.isSome = kind.qualifierForm?.isSome) : qualifier.isSome = true := by
  unfold settingFor at h
  cases qualifier with
  | some q => rfl
  | none =>
    cases hform : kind.qualifierForm? with
    | none =>
      rw [hform] at h
      cases h
    | some form =>
      rw [hform] at hq
      cases hq

theorem Draft.carries_declaration {s : Declaration}
    (hs : s.qualifier.isSome = s.kind.qualifierForm?.isSome) :
    d.Carries (.declaration s) (d.apply (.declaration s)) := by
  unfold apply
  simp only
  cases hd : d.circuit.device? s.name.id with
  | some e =>
    have hused := Circuit.declare_of_used hd s.kind (s.qualifier.map Prod.fst)
    rw [hused]
    exact .refused (by rw [Statement.call, hused]; rfl) (.usedName hd)
  | none =>
    cases hsetting : s.kind.settingFor (s.qualifier.map Prod.fst) with
    | some setting =>
      have hok := Circuit.declare_eq_ok_iff.mpr ⟨hd, setting, hsetting, rfl⟩
      rw [hok]
      exact .done (by rw [Statement.call, hok]; rfl)
    | none =>
      have hinvalid := Circuit.declare_of_invalid hd hsetting
      obtain ⟨⟨q, p⟩, hq⟩ : ∃ qualifier, s.qualifier = some qualifier := by
        have hsome := DeviceKind.isSome_of_settingFor_eq_none hsetting
          (by rw [Option.isSome_map, hs])
        rwa [Option.isSome_map, Option.isSome_iff_exists] at hsome
      have hfault : declarationFault s .invalidQualifier =
          ⟨.invalidQualifier s.kind.qualifierForm?, .token p⟩ := by
        unfold declarationFault
        rw [hq]
        rfl
      rw [hinvalid]
      simp only [hfault]
      rw [hq] at hsetting
      exact .refused (by rw [Statement.call, hinvalid]; rfl) (.invalidQualifier hd hq hsetting)

theorem Draft.carries_connection {s : Connection} {driven : Device}
    (houtput : s.source.Fits d.circuit) (hdevice : d.circuit.device? s.device.id = some driven)
    (hinput : driven.hasInput s.pin.id = true) (hover : d.circuit.Over t)
    (h : d.circuit.Consistent t) : d.Carries (.connection s) (d.apply (.connection s)) := by
  obtain ⟨driver, hdriver, hout⟩ := houtput.hasOutput hover h
  obtain ⟨slot, hslot⟩ := SortedMap.contains_iff.mp hinput
  unfold apply
  simp only
  cases slot with
  | none =>
    have hfree : driven.inputs.get? s.sink.pin = some none := hslot
    have hok := Circuit.connect_eq_ok_iff.mpr ⟨driver, driven, hdriver, hout, hdevice, hfree, rfl⟩
    rw [hok]
    exact .done (by rw [Statement.call, hok]; rfl)
  | some o =>
    have hdriven : driven.inputs.get? s.sink.pin = some (some o) := hslot
    have hoccupied := Circuit.connect_of_driven hdriver hout hdevice hdriven
    rw [hoccupied]
    exact .refused (by rw [Statement.call, hoccupied]; rfl) (.occupiedInput hdevice hslot)

theorem Draft.carries_monitor {m : OutputMention} (hm : m.Fits d.circuit)
    (hover : d.circuit.Over t) (h : d.circuit.Consistent t) :
    d.Carries (.monitor m) (d.apply (.monitor m)) := by
  obtain ⟨device, hdevice, hout⟩ := hm.hasOutput hover h
  unfold apply
  simp only
  cases hmonitored : d.circuit.monitors.contains m.output with
  | false =>
    have hok := Circuit.monitor_eq_ok_iff.mpr ⟨device, hdevice, hout, hmonitored, rfl⟩
    rw [hok]
    exact .done (by rw [Statement.call, hok]; rfl)
  | true =>
    have hrefused := Circuit.monitor_of_monitored hdevice hout hmonitored
    rw [hrefused]
    exact .refused (by rw [Statement.call, hrefused]; rfl) (.monitored hmonitored)

/-- **What a statement that fits its form does to a draft.** -/
theorem Draft.carries_apply {st : Statement} (hst : st.Fits d.circuit) (hover : d.circuit.Over t)
    (h : d.circuit.Consistent t) : d.Carries st (d.apply st) := by
  cases hst with
  | declaration hs => exact carries_declaration hs
  | connection houtput hdevice hinput => exact carries_connection houtput hdevice hinput hover h
  | monitor hm => exact carries_monitor hm hover h

end Carry

/-- What a statement in its section does to a draft: it is read and carried out. -/
theorem Draft.take_keyword (d : Draft) {g : Segment} {k : Keyword} {w : Word}
    (hkind : g.head.kind = .keyword k w) (hactive : d.sections.active = some k.homeSection) :
    d.take g =
      match ((Statement.read d.circuit k).runOn g.tail).1 with
      | .error fault => (some fault, d)
      | .ok st =>
        match d.apply st with
        | .ok d => (none, d)
        | .error fault => (some fault, d) := by
  unfold take takeStatement
  rw [hkind]
  simp only [if_pos hactive]
  cases ((Statement.read d.circuit k).runOn g.tail).1 <;> rfl

/-! ## Reports -/

/-- A statement is blamed at a place, from the reading in front of it to the one behind it: there is
one report, and it points there. The draft stays. -/
structure Reading.Blames (r r' : Reading) (source : String) (place : Place) : Prop where
  report : ∃ message excerpt, r'.log.diagnostics =
      r.log.diagnostics ++ [⟨r.log.count + 1, message, some excerpt⟩] ∧
    place.position? source.toList = some excerpt.position
  draft : r'.draft = r.draft

namespace Reading

variable {source : String} {r : Reading} {g : Segment} {stream : TokenStream}

/-- **A segment with a fault has one report, at the place of the fault.** -/
theorem blames_takeSegment (h : r.Reads source) (hg : r.stream.segment? = some (g, stream))
    {fault : Fault} (htake : r.draft.take g = (some fault, r.draft)) :
    r.Blames (r.takeSegment g stream) source fault.place := by
  obtain ⟨-, e, he, -⟩ := h.exists_excerpt hg (congrArg Prod.fst htake)
  refine ⟨⟨fault.problem.message, e, ?_, ?_⟩, congrArg Prod.snd htake⟩
  · rw [log_takeSegment, htake, ← he]
    rfl
  · rw [← DiagnosticLog.position_excerpt h.lines, he]
    rfl

/-- What a reading makes of the segment `g` of a statement with the keyword `k`, up to the reading
`r'` behind it, by how the tokens compare with the form of the statement. -/
inductive Treats (source : String) (k : Keyword) (g : Segment) (r r' : Reading) :
    Except Place (List Token × List Token) → Prop
  /-- A token does not fit: no statement is read, so there is no call. -/
  | misfit {place : Place} (unread : ∀ st, ((Statement.read r.circuit k).runOn g.tail).1 ≠ .ok st)
      (blames : r.Blames r' source place) : Treats source k g r r' (.error place)
  /-- All tokens fit, and the circuit carries out what they spell. -/
  | accepted {matched rest : List Token} {st : Statement} (spelled : st.Spelled k matched)
      (read : ((Statement.read r.circuit k).runOn g.tail).1 = .ok st)
      (call : st.call r.circuit = some r'.circuit) (silent : r'.log = r.log) :
      Treats source k g r r' (.ok (matched, rest))
  /-- All tokens fit, and the circuit refuses what they spell. -/
  | refused {matched rest : List Token} {st : Statement} {p : Position}
      (spelled : st.Spelled k matched)
      (read : ((Statement.read r.circuit k).runOn g.tail).1 = .ok st)
      (call : st.call r.circuit = none) (refused : st.RefusedAt r.circuit p)
      (blames : r.Blames r' source (.token p)) : Treats source k g r r' (.ok (matched, rest))

/-- A statement in its section is treated by how its tokens compare with its form. -/
theorem Reads.treats_takeSegment (h : r.Reads source)
    (hg : r.stream.segment? = some (g, stream)) {k : Keyword} {w : Word}
    (hkind : g.head.kind = .keyword k w) (hactive : r.draft.sections.active = some k.homeSection)
    {t : NameTable} (hover : r.circuit.Over t) (hconsistent : r.circuit.Consistent t)
    {us : List Token} (hleads : Lockstep.Leads g.tail us) (hapt : ∀ u ∈ us, u.Apt r.circuit) :
    Treats source k g r (r.takeSegment g stream) ((k.form r.circuit).compare us) := by
  have htake := r.draft.take_keyword hkind hactive
  have hread := Statement.runOn_read_of_leads r.circuit k hleads
  have hfollows := Statement.follows_read r.circuit k us hapt
  generalize (k.form r.circuit).compare us = compared at hfollows ⊢
  generalize (Statement.read r.circuit k).runOn us = answer at hfollows hread
  cases hfollows with
  | @fault problem place rest =>
    refine .misfit (fun st hst => by rw [hread] at hst; cases hst) ?_
    rw [show ((Statement.read r.draft.circuit k).runOn g.tail).1 = _ from hread] at htake
    exact blames_takeSegment h hg htake
  | @read matched rest st hsaid =>
    obtain ⟨hspelled, hfits⟩ := hsaid
    have hcarries : r.draft.Carries st (r.draft.apply st) :=
      Draft.carries_apply hfits hover hconsistent
    rw [show ((Statement.read r.draft.circuit k).runOn g.tail).1 = _ from hread] at htake
    simp only at htake
    generalize r.draft.apply st = applied at hcarries htake
    cases hcarries with
    | @done d hcall =>
      have hcircuit : (r.takeSegment g stream).circuit = d.circuit :=
        congrArg (Draft.circuit ∘ Prod.snd) htake
      exact .accepted hspelled hread (hcircuit ▸ hcall)
        (log_takeSegment_eq_iff.mpr (congrArg Prod.fst htake))
    | @refused problem p hcall hblame =>
      exact .refused hspelled hread hcall hblame (blames_takeSegment h hg htake)

end Reading

/-- The segment of a statement is what follows its keyword, up to the first `;`. -/
theorem TokenStream.segment?_of_keyword {s s' : TokenStream} {k : Keyword} {w : Word}
    {p : Position} (h : s.next = (some ⟨.keyword k w, p⟩, s')) :
    s.segment? = some (⟨⟨.keyword k w, p⟩, s'.throughStop.1⟩, s'.throughStop.2) := by
  unfold segment?
  rw [h]
  rfl

namespace Session

/-- **A broken statement is reported at its first fault**, in every session and wherever it stands
in a definition that is read there, if it stands in its section. The tokens behind its keyword are
compared with its form, to the end of the input if need be. At the first one that does not fit is
the one report; if all fit, the statement is accepted just if its call is, and the one report is
otherwise at the token that is to blame for the refusal. The statement and what is skipped behind it
are one turn of the parser. -/
theorem blames_read (words : List String) (commands : List Command) (source : String)
    (limit : Option Nat) {gs : List Segment} {r : Reading}
    (h : (((start words).runAll commands).read source limit).Passes gs r) {k : Keyword} {w : Word}
    {p : Position} {s : TokenStream} (hnext : r.stream.next = (some ⟨.keyword k w, p⟩, s))
    (hactive : r.draft.sections.active = some k.homeSection) :
    ∃ g stream, r.stream.segment? = some (g, stream) ∧
      (((start words).runAll commands).read source limit).Continues r (r.takeSegment g stream) ∧
      Reading.Treats source k g r (r.takeSegment g stream)
        ((k.form r.circuit).compare s.rawAll.1) := by
  have hreads := (Reading.reads_start source _ _ limit).passes h
  obtain ⟨hover, hconsistent⟩ := (consistent_reachable words commands).passes h
  have hstream : r.stream.next.2 = s := congrArg Prod.snd hnext
  have hs : s.Sound := hstream ▸ hreads.sound.next
  have hle : r.names ≤ s.allNames :=
    NameTable.le_trans (hstream ▸ r.stream.le_names_next) s.names_le_allNames
  have hapt : ∀ t ∈ s.rawAll.1, t.Apt r.circuit := fun t ht => by
    rw [TokenStream.rawAll_eq hs NameTable.le_rfl] at ht
    exact (hover.of_le hle).apt ht
  have hg := TokenStream.segment?_of_keyword hnext
  exact ⟨_, _, hg, continues_read h hg,
    hreads.treats_takeSegment hg rfl hactive hover hconsistent
      (TokenStream.leads_throughStop hs) hapt⟩

/-- Where the `=` of a switch is missing, the number behind the gap is reported. -/
theorem blames_read_switch :
    let source := "DEVICE: SWITCH a 1;"
    let r := ((start []).runAll []).read source none
    ∃ gs last g stream, r.Passes gs last ∧ last.stream.segment? = some (g, stream) ∧
      r.Continues last (last.takeSegment g stream) ∧
      Reading.Treats source (.device .switch) g last (last.takeSegment g stream)
        (.error (.token ⟨1, 18⟩)) := by
  intro source r
  let last := r.behindFirst
  obtain ⟨gs, hpasses⟩ := Reading.exists_passes_behindFirst (r := r) rfl
  let s := last.stream.next.2
  have hnext : last.stream.next = (some ⟨.keyword (.device .switch) ⟨31, "SWITCH"⟩, ⟨1, 9⟩⟩, s) :=
    Prod.ext (by decide +kernel) rfl
  have hcompare : (Keyword.form last.circuit (.device .switch)).compare s.rawAll.1 =
      .error (.token ⟨1, 18⟩) := by decide +kernel
  obtain ⟨g, stream, hg, hcontinues, htreats⟩ :=
    blames_read [] [] source none hpasses hnext (by decide +kernel)
  rw [hcompare] at htreats
  exact ⟨gs, last, g, stream, hpasses, hg, hcontinues, htreats⟩

end Session

end Netlist
