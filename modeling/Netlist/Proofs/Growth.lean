import Mathlib.Logic.Relation
import Netlist.Proofs.Interning
import Netlist.Proofs.SortedMap
import Netlist.Session

/-!
# How a session grows

Whatever a session is asked to do, its name table only grows at the end and its circuit only grows
by accepted operations. What holds at the start and is kept by one operation then holds of every
session that can be reached.

## Results

* `Circuit.declare_eq_ok_iff`, `Circuit.connect_eq_ok_iff`, `Circuit.monitor_eq_ok_iff`: when an
  operation is accepted, and what it does.
* `Circuit.declare_of_used`, `Circuit.declare_of_invalid`, `Circuit.connect_of_driven`,
  `Circuit.monitor_of_monitored`: what an operation is refused for.
* `Draft.acceptedBy_of_apply`: what an accepted statement does to a draft.
* `Draft.take_cases`: all that a segment can do to a draft.
* `Reading.readOn_induction`: what a segment keeps, a whole reading keeps.
* `Session.grown_runAll`: **every session grows out of its start.**
-/

namespace Netlist

/-! ## Operations on a circuit -/

namespace Circuit

variable {c c' : Circuit}

theorem declare_eq_ok_iff {id : NameId} {kind : DeviceKind} {qualifier : Option Qualifier} :
    c.declare id kind qualifier = .ok c' ↔
      c.device? id = none ∧ ∃ setting, kind.settingFor qualifier = some setting ∧
        c' = { c with devices := c.devices.insert id (Device.make c.pins id kind setting) } := by
  unfold declare
  split
  · rename_i h
    obtain ⟨d, hd⟩ := SortedMap.contains_iff.mp h
    simp [device?, hd]
  · rename_i h
    have hn : c.device? id = none :=
      SortedMap.contains_eq_false_iff.mp (Bool.not_eq_true _ ▸ h)
    cases kind.settingFor qualifier with
    | none => simp
    | some setting => simp [hn, eq_comm]

theorem connect_eq_ok_iff {source : Output} {sink : Input} :
    c.connect source sink = .ok c' ↔
      ∃ driver driven, c.device? source.device = some driver ∧
        driver.hasOutput source.pin = true ∧ c.device? sink.device = some driven ∧
        driven.inputs.get? sink.pin = some none ∧
        c' = { c with
          devices := c.devices.modify sink.device fun d => d.drive sink.pin source
          connections := c.connections + 1 } := by
  unfold connect
  cases c.device? source.device with
  | none => simp
  | some driver =>
    cases ho : driver.hasOutput source.pin with
    | false => simp [ho]
    | true =>
      cases hs : c.device? sink.device with
      | none => simp [ho]
      | some driven =>
        cases hi : driven.inputs.get? sink.pin with
        | none => simp [ho, hi]
        | some slot =>
          cases slot with
          | some o => simp [ho, hi]
          | none =>
            simp only [ho, hi, Bool.not_true, Bool.false_eq_true, if_false]
            constructor
            · intro h
              exact ⟨driver, driven, rfl, ho, rfl, hi, (Except.ok.inj h).symm⟩
            · rintro ⟨_, _, -, -, -, -, rfl⟩
              rfl

theorem monitor_eq_ok_iff {output : Output} :
    c.monitor output = .ok c' ↔
      ∃ device, c.device? output.device = some device ∧ device.hasOutput output.pin = true ∧
        c.monitors.contains output = false ∧
        c' = { c with monitors := c.monitors.add output } := by
  unfold monitor
  cases c.device? output.device with
  | none => simp
  | some device =>
    cases ho : device.hasOutput output.pin with
    | false => simp [ho]
    | true =>
      cases hm : c.monitors.contains output with
      | true => simp [ho]
      | false =>
        simp only [ho, Bool.not_true, Bool.false_eq_true, if_false]
        constructor
        · intro h
          exact ⟨device, rfl, ho, trivial, (Except.ok.inj h).symm⟩
        · rintro ⟨_, -, -, -, rfl⟩
          rfl

/-- A used name is refused, whatever is declared. -/
theorem declare_of_used {id : NameId} {d : Device} (h : c.device? id = some d) (kind : DeviceKind)
    (qualifier : Option Qualifier) : c.declare id kind qualifier = .error .nameAlreadyUsed :=
  if_pos (SortedMap.contains_iff.mpr ⟨d, h⟩)

/-- For a free name the qualifier is refused. -/
theorem declare_of_invalid {id : NameId} {kind : DeviceKind} {qualifier : Option Qualifier}
    (h : c.device? id = none) (hsetting : kind.settingFor qualifier = none) :
    c.declare id kind qualifier = .error .invalidQualifier := by
  unfold declare
  rw [SortedMap.contains_eq_false_iff.mpr h, hsetting]
  rfl

/-- An input with a driver is refused to another output. -/
theorem connect_of_driven {source : Output} {sink : Input} {driver driven : Device} {o : Output}
    (hdriver : c.device? source.device = some driver) (hout : driver.hasOutput source.pin = true)
    (hdriven : c.device? sink.device = some driven)
    (ho : driven.inputs.get? sink.pin = some (some o)) :
    c.connect source sink = .error .inputAlreadyConnected := by
  unfold connect
  simp only [hdriver, hout, hdriven, ho, Bool.not_true, Bool.false_eq_true, if_false]

/-- An output is refused to be monitored again. -/
theorem monitor_of_monitored {output : Output} {device : Device}
    (hdevice : c.device? output.device = some device) (hout : device.hasOutput output.pin = true)
    (h : c.monitors.contains output = true) : c.monitor output = .error .alreadyMonitored := by
  unfold monitor
  simp only [hdevice, hout, h, Bool.not_true, Bool.false_eq_true, if_false, if_true]

/-- One accepted operation. -/
inductive Step (c : Circuit) : Circuit → Prop
  | declare {id : NameId} {kind : DeviceKind} {qualifier : Option Qualifier} {setting : Setting}
      (fresh : c.device? id = none) (fits : kind.settingFor qualifier = some setting) :
      Step c { c with devices := c.devices.insert id (Device.make c.pins id kind setting) }
  | connect {source : Output} {sink : Input} {driver driven : Device}
      (declared : c.device? source.device = some driver)
      (output : driver.hasOutput source.pin = true)
      (sunk : c.device? sink.device = some driven)
      (free : driven.inputs.get? sink.pin = some none) :
      Step c { c with
        devices := c.devices.modify sink.device fun d => d.drive sink.pin source
        connections := c.connections + 1 }
  | monitor {target : Output} {device : Device}
      (declared : c.device? target.device = some device)
      (output : device.hasOutput target.pin = true)
      (new : c.monitors.contains target = false) :
      Step c { c with monitors := c.monitors.add target }

theorem step_of_declare {id : NameId} {kind : DeviceKind} {qualifier : Option Qualifier}
    (h : c.declare id kind qualifier = .ok c') : Step c c' := by
  obtain ⟨hn, setting, hs, rfl⟩ := declare_eq_ok_iff.mp h
  exact .declare hn hs

theorem step_of_connect {source : Output} {sink : Input} (h : c.connect source sink = .ok c') :
    Step c c' := by
  obtain ⟨driver, driven, hd, ho, hs, hf, rfl⟩ := connect_eq_ok_iff.mp h
  exact .connect hd ho hs hf

theorem step_of_monitor {output : Output} (h : c.monitor output = .ok c') : Step c c' := by
  obtain ⟨device, hd, ho, hm, rfl⟩ := monitor_eq_ok_iff.mp h
  exact .monitor hd ho hm

/-- `c'` grows out of `c` by accepted operations. -/
def Grown : Circuit → Circuit → Prop := Relation.ReflTransGen Step

theorem Grown.pins (h : Grown c c') : c'.pins = c.pins := by
  induction h with
  | refl => rfl
  | tail _ hs ih => cases hs <;> exact ih

end Circuit

/-! ## Segments -/

namespace Draft

variable {d d' : Draft}

/-- A statement is accepted by a draft with what its operation answers, and the device that it uses
is not unused any more. -/
inductive AcceptedBy (d : Draft) : Statement → Draft → Prop
  | declaration {s : Declaration} {circuit : Circuit}
      (answer : d.circuit.declare s.name.id s.kind (s.qualifier.map Prod.fst) = .ok circuit) :
      AcceptedBy d (.declaration s) { d with circuit, unused := d.unused.add s.name.id }
  | connection {s : Connection} {circuit : Circuit}
      (answer : d.circuit.connect s.source.output s.sink = .ok circuit) :
      AcceptedBy d (.connection s) { d with circuit, unused := d.unused.remove s.source.device.id }
  | monitor {m : OutputMention} {circuit : Circuit}
      (answer : d.circuit.monitor m.output = .ok circuit) :
      AcceptedBy d (.monitor m) { d with circuit, unused := d.unused.remove m.device.id }

theorem acceptedBy_of_apply {st : Statement} (h : d.apply st = .ok d') : d.AcceptedBy st d' := by
  unfold apply at h
  cases st with
  | declaration s =>
    simp only at h
    split at h
    · cases h
      exact .declaration ‹_›
    · cases h
  | connection s =>
    simp only at h
    split at h
    · cases h
      exact .connection ‹_›
    · cases h
  | monitor m =>
    simp only at h
    split at h
    · cases h
      exact .monitor ‹_›
    · cases h

/-- The circuit behind an accepted statement is one step on. -/
theorem step_of_apply {st : Statement} (h : d.apply st = .ok d') :
    Circuit.Step d.circuit d'.circuit ∧ d'.sections = d.sections := by
  cases acceptedBy_of_apply h with
  | declaration hc => exact ⟨Circuit.step_of_declare hc, rfl⟩
  | connection hc => exact ⟨Circuit.step_of_connect hc, rfl⟩
  | monitor hc => exact ⟨Circuit.step_of_monitor hc, rfl⟩

/-- All that a segment can do: it is refused, or it is a heading that changes nothing but the
sections, or it is a statement that was read and carried out. -/
theorem take_cases (d : Draft) (g : Segment) :
    (∃ fault, d.take g = (some fault, d)) ∨
    (∃ s w, g.head.kind = .heading s w ∧
      (d.take g).2 = { d with sections := (d.sections.enter s).2 }) ∨
    (∃ k w st d', g.head.kind = .keyword k w ∧ d.sections.active = some k.homeSection ∧
      ((Statement.read d.circuit k).runOn g.tail).1 = .ok st ∧ d.apply st = .ok d' ∧
      d.take g = (none, d')) := by
  unfold take
  split
  · rename_i s w hk
    unfold takeHeading
    split
    · exact .inl ⟨_, rfl⟩
    · exact .inr (.inl ⟨s, w, hk, rfl⟩)
  · rename_i k w hk
    split
    · rename_i d' hd
      unfold takeStatement at hd
      split at hd
      · rename_i ha
        split at hd
        · rename_i st hst
          exact .inr (.inr ⟨k, w, st, d', hk, ha, hst, hd, rfl⟩)
        · exact absurd hd (by simp)
      · exact absurd hd (by simp)
    · exact .inl ⟨_, rfl⟩
  · exact .inl ⟨_, rfl⟩

theorem grown_take (d : Draft) (g : Segment) : d.circuit.Grown (d.take g).2.circuit := by
  rcases d.take_cases g with ⟨fault, h⟩ | ⟨s, w, -, h⟩ | ⟨k, w, st, d', -, -, -, ha, h⟩
  · rw [h]
    exact Relation.ReflTransGen.refl
  · rw [h]
    exact Relation.ReflTransGen.refl
  · rw [h]
    exact Relation.ReflTransGen.single (step_of_apply ha).1

end Draft

/-! ## Names of a token stream -/

namespace TokenStream

open NameTable (le_rfl le_trans le_insert)

theorem names_ofLexemes (ls : List Lexeme) (t : NameTable) :
    (ofLexemes ls t).names = (Vocabulary.intern t).2 := by
  unfold ofLexemes
  generalize Vocabulary.intern t = v
  rfl

theorem le_names_read (s : TokenStream) (l : Lexeme) : s.names ≤ (s.read l).2.names := by
  cases l with
  | word text => exact le_insert _ _
  | numeral text => exact le_insert _ _
  | blank text => exact le_rfl
  | arrow => exact le_rfl
  | mark c => exact le_rfl

theorem le_names_readAll (s : TokenStream) (ls : List Lexeme) :
    s.names ≤ (s.readAll ls).2.names := by
  induction ls generalizing s with
  | nil => exact le_rfl
  | cons l ls ih => exact le_trans (s.le_names_read l) (ih _)

theorem le_names_nextRaw (s : TokenStream) : s.names ≤ s.nextRaw.2.names := by
  unfold nextRaw
  split
  · exact le_rfl
  · exact s.le_names_read _

theorem le_names_next (s : TokenStream) : s.names ≤ s.next.2.names :=
  s.skipBlank.le_names_nextRaw

theorem le_names_segmentTail (s : TokenStream) (k : TokenKind) :
    s.names ≤ (s.segmentTail k).2.names := by
  unfold segmentTail
  split
  · exact le_rfl
  · split
    · rename_i s' hn
      exact le_trans s.le_names_next (by rw [hn]; exact le_rfl)
    · exact s.le_names_readAll _
  · exact s.le_names_readAll _

theorem le_names_segment? {s s' : TokenStream} {g : Segment} (h : s.segment? = some (g, s')) :
    s.names ≤ s'.names := by
  unfold segment? at h
  split at h
  · exact absurd h (by simp)
  · rename_i t s₁ hn
    cases h
    exact le_trans (by rw [show s₁ = s.next.2 by rw [hn]]; exact s.le_names_next)
      (s₁.le_names_segmentTail t.kind)

end TokenStream

/-! ## Readings -/

namespace Reading

/-- **What a segment keeps, a whole reading keeps.** -/
theorem readOn_induction {P : Reading → Prop} (r : Reading)
    (segment : ∀ r g stream, r.stream.segment? = some (g, stream) → P r →
      P (r.takeSegment g stream))
    (complete : ∀ r : Reading, P r → P r.complete) (finish : ∀ r : Reading, P r → P r.finish)
    (start : P r) : P r.readOn.2 := by
  fun_induction readOn r with
  | case1 r h => exact finish _ (complete _ start)
  | case2 r g stream h r' hl => exact finish _ (segment _ _ _ h start)
  | case3 r g stream h r' hl ih => exact ih (segment _ _ _ h start)

theorem parse_induction {P : Reading → Prop} (r : Reading)
    (segment : ∀ r g stream, r.stream.segment? = some (g, stream) → P r →
      P (r.takeSegment g stream))
    (complete : ∀ r : Reading, P r → P r.complete) (finish : ∀ r : Reading, P r → P r.finish)
    (start : P r) : P r.parse.2 := by
  unfold parse
  split
  · exact start
  · exact readOn_induction r segment complete finish start

end Reading

/-! ## Sessions -/

namespace Session

/-- `s'` grows out of `s`. -/
structure Grown (s s' : Session) : Prop where
  names : s.names ≤ s'.names
  circuit : s.circuit.Grown s'.circuit

theorem Grown.refl (s : Session) : s.Grown s := ⟨NameTable.le_rfl, Relation.ReflTransGen.refl⟩

theorem Grown.trans {s t u : Session} (h : s.Grown t) (h' : t.Grown u) : s.Grown u :=
  ⟨NameTable.le_trans h.names h'.names, Relation.ReflTransGen.trans h.circuit h'.circuit⟩

theorem grown_settle {ε : Type} (s : Session) {result : Except ε Circuit}
    (h : ∀ c, result = .ok c → Circuit.Step s.circuit c) : s.Grown (s.settle result).2 := by
  cases result with
  | ok c => exact ⟨NameTable.le_rfl, Relation.ReflTransGen.single (h c rfl)⟩
  | error e => exact .refl s

theorem grown_parse {s : Session} {r : Reading} (h : s.Grown (ofReading r)) :
    s.Grown (ofReading r.parse.2) := by
  refine r.parse_induction (P := fun r => s.Grown (ofReading r)) (fun r g stream hs hr => ?_)
    (fun r hr => hr) (fun r hr => hr) h
  refine hr.trans ⟨TokenStream.le_names_segment? hs, ?_⟩
  show r.draft.circuit.Grown (r.takeSegment g stream).draft.circuit
  exact r.draft.grown_take g

theorem grown_parseTimes {s : Session} {r : Reading} (h : s.Grown (ofReading r)) (calls : Nat) :
    s.Grown (ofReading (r.parseTimes calls).2) := by
  induction calls generalizing r with
  | zero => exact h
  | succ calls ih => exact ih (grown_parse h)

theorem ofReading_read (s : Session) (source : String) (limit : Option Nat) :
    ofReading (s.read source limit) = ⟨(Vocabulary.intern s.names).2, s.circuit⟩ := by
  unfold ofReading read Reading.start Reading.names Reading.circuit Draft.start TokenStream.ofSource
  simp only [TokenStream.names_ofLexemes]

theorem grown_read (s : Session) (source : String) (limit : Option Nat) :
    s.Grown (ofReading (s.read source limit)) := by
  rw [ofReading_read]
  exact ⟨Vocabulary.le_intern s.names, Relation.ReflTransGen.refl⟩

theorem grown_run (s : Session) (command : Command) : s.Grown (s.run command) := by
  cases command with
  | intern name => exact ⟨NameTable.le_insert _ _, Relation.ReflTransGen.refl⟩
  | declare id kind qualifier => exact s.grown_settle fun c h => Circuit.step_of_declare h
  | connect source sink => exact s.grown_settle fun c h => Circuit.step_of_connect h
  | monitor output => exact s.grown_settle fun c h => Circuit.step_of_monitor h
  | read source limit calls =>
    exact grown_parseTimes (s.grown_read source limit) calls

/-- **Every session grows out of its start.** -/
theorem grown_runAll (s : Session) (commands : List Command) : s.Grown (s.runAll commands) := by
  induction commands generalizing s with
  | nil => exact .refl s
  | cons command commands ih => exact (s.grown_run command).trans (ih _)

end Session

end Netlist
