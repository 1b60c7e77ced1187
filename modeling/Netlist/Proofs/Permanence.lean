import Netlist.Proofs.Closing
import Netlist.Proofs.Containment
import Netlist.Proofs.Pointing
import Netlist.Proofs.Recovery

/-!
# Nothing is taken back

A session only adds: whatever it is asked to do, the names keep their identifiers, the devices their
pins and settings, the inputs their drivers, and the monitors stay. What it refuses, it refuses as a
whole. That holds for the calls on a circuit, and for every statement of a definition: a statement
with an error may have been read to its end, and its words stay interned, but the circuit and the
unused devices are what they were in front of it.

## Results

* `Reading.Reads.frame_turn`: a turn of the parser that reports an error changes neither the circuit
  nor the unused devices.
* `Session.permanent_runAll`: **a session takes nothing back, and what it refuses changes nothing.**
-/

namespace Netlist

namespace Reading

variable {source : String} {r r' : Reading}

/-- A turn of the parser takes in the next segment. -/
theorem Reads.turn_cases (h : r.Reads source) (hturn : r.turn? = some r') :
    ∃ g stream, r.stream.segment? = some (g, stream) ∧ r' = r.takeSegment g stream := by
  rw [turn?_eq h.sound] at hturn
  obtain ⟨⟨g, stream⟩, hg, rfl⟩ := Option.map_eq_some_iff.mp hturn
  exact ⟨g, stream, hg, rfl⟩

/-- Names, circuit and diagnostics only grow in a turn. -/
theorem Reads.grown_turn (h : r.Reads source) (hturn : r.turn? = some r') : r.Grown r' := by
  obtain ⟨g, stream, hg, rfl⟩ := h.turn_cases hturn
  exact grown_takeSegment hg

/-- **A turn with an error changes neither the circuit nor the unused devices.** -/
theorem Reads.frame_turn (h : r.Reads source) (hturn : r.turn? = some r')
    (hlog : r'.log ≠ r.log) : r'.circuit = r.circuit ∧ r'.draft.unused = r.draft.unused := by
  obtain ⟨g, stream, -, rfl⟩ := h.turn_cases hturn
  exact Draft.frame_take_of_fault fun hnone => hlog (log_takeSegment_eq_iff.mpr hnone)

end Reading

namespace Session

/-- `s'` has all that `s` has: the names in their places, the devices with their pins, settings and
drivers, and the monitors. -/
structure Within (s s' : Session) : Prop where
  names : s.names.names <+: s'.names.names
  circuit : s.circuit.PartOf s'.circuit

theorem Grown.within {s s' : Session} (h : s.Grown s') : s.Within s' := ⟨h.names, h.circuit.partOf⟩

/-- A call that the circuit refuses changes nothing. -/
theorem settle_of_error {ε : Type} {s : Session} {result : Except ε Circuit} {e : ε}
    (h : (s.settle result).1 = .error e) : (s.settle result).2 = s := by
  cases result with
  | ok c => cases h
  | error e => rfl

/-- What is refused in a session changes nothing. -/
structure Atomic (s : Session) : Prop where
  declare : ∀ id kind qualifier e,
    (s.declare id kind qualifier).1 = .error e → (s.declare id kind qualifier).2 = s
  connect : ∀ source sink e, (s.connect source sink).1 = .error e → (s.connect source sink).2 = s
  monitor : ∀ output e, (s.monitor output).1 = .error e → (s.monitor output).2 = s
  /-- A statement with an error, wherever it stands in a definition, leaves the circuit and the
  unused devices as they were in front of it. -/
  statement : ∀ source limit gs r r', (s.read source limit).Passes gs r → r.turn? = some r' →
    r'.log ≠ r.log → r'.circuit = r.circuit ∧ r'.draft.unused = r.draft.unused

theorem atomic (s : Session) : s.Atomic where
  declare _ _ _ _ h := settle_of_error h
  connect _ _ _ h := settle_of_error h
  monitor _ _ h := settle_of_error h
  statement source limit _ _ _ h hturn hlog :=
    ((Reading.reads_start source _ _ limit).passes h).frame_turn hturn hlog

/-- **A session takes nothing back, and what it refuses changes nothing.** Behind any commands, and
in the middle of a definition that is read there, every session that was reached on the way is still
there as a part, whatever was refused. -/
theorem permanent_runAll (words : List String) (commands more : List Command) :
    let s := (start words).runAll commands
    let s' := s.runAll more
    s.Within s' ∧ s'.Atomic ∧
      ∀ source limit gs r r', (s'.read source limit).Passes gs r → r.turn? = some r' →
        s.Within (ofReading r) ∧ (ofReading r).Within (ofReading r') := by
  intro s s'
  have hmore : s.Grown s' := s.grown_runAll more
  refine ⟨hmore.within, s'.atomic, fun source limit gs r r' h hturn => ?_⟩
  have hturned := ((Reading.reads_start source _ _ limit).passes h).grown_turn hturn
  exact ⟨(hmore.trans (grown_passes h)).within, Grown.within ⟨hturned.names, hturned.circuit⟩⟩

end Session

end Netlist
