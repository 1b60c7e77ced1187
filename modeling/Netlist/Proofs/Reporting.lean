import Netlist.Proofs.Checking
import Netlist.Proofs.Excerpts
import Netlist.Proofs.Naming
import Netlist.Proofs.Passage

/-!
# What a check reports

Without a limit on errors, a check takes in every segment. Its diagnostics with a place are those of
the segments with a fault, in their order; behind them stand the messages about what is missing.

## Results

* `DiagnosticLog.filterMap_placed?_reportAll`: faults are reported with their places.
* `check_none_eq`: **what a check without a limit answers.**
-/

namespace Netlist

/-- A diagnostic with a place: its message, its line and its column. -/
def Diagnostic.placed? (d : Diagnostic) : Option (String × Nat × Nat) :=
  d.excerpt.map fun e => (d.message, e.line, e.column)

/-- The messages of the diagnostics without a place. -/
def globalMessages (ds : List Diagnostic) : List String :=
  (ds.filter Diagnostic.isGlobal).map Diagnostic.message

namespace Report

/-- The diagnostics with a place. -/
def positioned (r : Report) : List (String × Nat × Nat) :=
  r.diagnostics.filterMap Diagnostic.placed?

/-- The messages of the diagnostics without a place. -/
def globals (r : Report) : List String := globalMessages r.diagnostics

end Report

/-- The messages at the end of the input: about a section that never came, about inputs without a
driver, and about devices that nothing uses. -/
def endMessages (missing : Option Section) (inputs : List (String × String))
    (devices : List String) : List String :=
  missing.toList.map (fun s => (Problem.sectionAbsent s).message) ++
    (if inputs = [] then [] else [(Problem.inputsUnconnected inputs).message]) ++
    (if devices = [] then [] else [(Problem.devicesUnused devices).message])

namespace Draft

/-- The messages about what is missing list the names of what is missing. -/
theorem map_message_omissions (d : Draft) (t : NameTable) (faultless : Bool) :
    (d.omissions t faultless).map Problem.message =
      endMessages (if faultless then d.sections.firstMissing else none)
        (d.circuit.unconnectedNames t) (d.unusedNames t) := by
  have hsection : (d.absentSection faultless).toList.map Problem.message =
      (if faultless then d.sections.firstMissing else none).toList.map
        fun s => (Problem.sectionAbsent s).message := by
    unfold absentSection
    cases faultless with
    | false => rfl
    | true => cases d.sections.firstMissing <;> rfl
  have hinputs : (d.unconnectedInputs t).toList.map Problem.message =
      if d.circuit.unconnectedNames t = [] then []
      else [(Problem.inputsUnconnected (d.circuit.unconnectedNames t)).message] := by
    unfold unconnectedInputs Circuit.fullyConnected Circuit.unconnectedNames
    cases d.circuit.unconnected <;> rfl
  have hunused : (d.unusedDevices t).toList.map Problem.message =
      if d.unusedNames t = [] then []
      else [(Problem.devicesUnused (d.unusedNames t)).message] := by
    unfold unusedDevices unusedNames SortedMap.isEmpty SortedMap.keys
    cases d.unused.entries <;> rfl
  unfold omissions endMessages
  rw [List.map_append, List.map_append, hsection, hinputs, hunused]

end Draft

namespace DiagnosticLog

/-- A fault with the line and the column that it points at. -/
def placedFault? (log : DiagnosticLog) (fault : Fault) : Option (String × Nat × Nat) :=
  (log.point fault.place).map fun q => (fault.problem.message, q)

theorem placedFault?_report (log : DiagnosticLog) (message : String) (place : Place) :
    (log.report message place).placedFault? = log.placedFault? := rfl

theorem filterMap_placed?_add (log : DiagnosticLog) (message : String)
    (excerpt : Option Excerpt) :
    (log.add message excerpt).diagnostics.filterMap Diagnostic.placed? =
      log.diagnostics.filterMap Diagnostic.placed? ++
        (excerpt.map fun e => (message, e.line, e.column)).toList := by
  unfold add
  rw [List.filterMap_append]
  cases excerpt <;> rfl

theorem globalMessages_add (log : DiagnosticLog) (message : String) (excerpt : Option Excerpt) :
    globalMessages (log.add message excerpt).diagnostics =
      globalMessages log.diagnostics ++ if excerpt.isNone then [message] else [] := by
  unfold add globalMessages
  rw [List.filter_append, List.map_append]
  cases excerpt <;> rfl

/-- Faults are reported with their places, in their order. -/
theorem filterMap_placed?_reportAll (log : DiagnosticLog) (faults : List Fault) :
    (log.reportAll faults).diagnostics.filterMap Diagnostic.placed? =
      log.diagnostics.filterMap Diagnostic.placed? ++ faults.filterMap log.placedFault? := by
  induction faults generalizing log with
  | nil => exact (List.append_nil _).symm
  | cons fault faults ih =>
    have hfault : ((log.excerpt fault.place).map fun e =>
        (fault.problem.message, e.line, e.column)) = log.placedFault? fault := by
      unfold placedFault? point
      rw [Option.map_map]
      rfl
    show ((log.report _ _).reportAll faults).diagnostics.filterMap Diagnostic.placed? = _
    rw [ih, placedFault?_report, report, filterMap_placed?_add, hfault, List.append_assoc,
      List.filterMap_cons]
    cases log.placedFault? fault <;> rfl

/-- Faults with a place are not global. -/
theorem globalMessages_reportAll (log : DiagnosticLog) {faults : List Fault}
    (h : ∀ fault ∈ faults, (log.point fault.place).isSome = true) :
    globalMessages (log.reportAll faults).diagnostics = globalMessages log.diagnostics := by
  induction faults generalizing log with
  | nil => rfl
  | cons fault faults ih =>
    obtain ⟨hfault, hfaults⟩ := List.forall_mem_cons.mp h
    unfold point at hfault
    rw [Option.isSome_map] at hfault
    have hreport := ih (log.report fault.problem.message fault.place) hfaults
    show globalMessages ((log.report _ _).reportAll faults).diagnostics = _
    rw [hreport, report, globalMessages_add, Option.isNone_eq_false_iff.mpr hfault]
    exact List.append_nil _

end DiagnosticLog

/-- At the end of the input, messages about what is missing are added. -/
theorem Reading.diagnostics_complete (r : Reading) :
    r.complete.log.diagnostics.filterMap Diagnostic.placed? =
        r.log.diagnostics.filterMap Diagnostic.placed? ∧
      globalMessages r.complete.log.diagnostics = globalMessages r.log.diagnostics ++
        endMessages (if r.clean then r.draft.sections.firstMissing else none)
          (r.draft.circuit.unconnectedNames r.names) (r.draft.unusedNames r.names) := by
  rw [diagnostics_complete_eq, Draft.map_message_omissions]
  generalize endMessages _ _ _ = messages
  set added := messages.mapIdx fun i message =>
    (⟨r.log.count + i + 1, message, none⟩ : Diagnostic) with hadded
  have hnone : ∀ d ∈ added, d.excerpt = none := fun d hd => by
    obtain ⟨i, _, rfl⟩ := List.mem_mapIdx.mp hd
    rfl
  have hplaced : added.filterMap Diagnostic.placed? = [] :=
    List.filterMap_eq_nil_iff.mpr fun d hd => by
      unfold Diagnostic.placed?
      rw [hnone d hd, Option.map_none]
  have hglobal : added.filter Diagnostic.isGlobal = added :=
    List.filter_eq_self.mpr fun d hd => by
      unfold Diagnostic.isGlobal
      rw [hnone d hd]
      rfl
  have hmessages : added.map Diagnostic.message = messages := by
    rw [hadded]
    exact List.ext_getElem (by simp) (by simp)
  unfold globalMessages
  rw [List.filterMap_append, hplaced, List.append_nil, List.filter_append, hglobal,
    List.map_append, hmessages]
  exact ⟨rfl, rfl⟩

/-! ## A check without a limit -/

/-- What a check without a limit takes in: its faults, and the draft at the end. -/
def takenIn (source : String) : List Fault × Draft :=
  let r := Reading.ofCheck source none
  r.draft.takeAll r.stream.segments

/-- The names of a check without a limit. -/
def namesOf (source : String) : NameTable := (Reading.ofCheck source none).stream.allNames

/-- **What a check without a limit answers.** -/
theorem check_none_eq (source : String) :
    let r := check source none
    let log := DiagnosticLog.ofSource source
    let d := (takenIn source).2
    r.names = namesOf source ∧ r.circuit = d.circuit ∧
      r.positioned = (takenIn source).1.filterMap log.placedFault? ∧
      ((∀ fault ∈ (takenIn source).1, (log.point fault.place).isSome = true) →
        r.globals =
          endMessages (if (takenIn source).1 = [] then d.sections.firstMissing else none)
            (d.circuit.unconnectedNames (namesOf source)) (d.unusedNames (namesOf source))) := by
  obtain ⟨stream, hnames, hread⟩ :=
    Reading.readOn_eq (Reading.sound_ofCheck source none) (show _ = none from rfl)
  have hcheck := check_eq source none
  rw [hread] at hcheck
  rw [hcheck]
  set log := DiagnosticLog.ofSource source
  set faults := (takenIn source).1
  set last : Reading := { Reading.ofCheck source none with
    stream, draft := (takenIn source).2, log := log.reportAll faults } with hlast
  obtain ⟨hplaced, hglobals⟩ := last.diagnostics_complete
  refine ⟨hnames, rfl, ?_, fun hpoints => ?_⟩
  · refine hplaced.trans ?_
    exact DiagnosticLog.filterMap_placed?_reportAll log faults
  · have hclean : last.clean = decide (faults = []) := by
      rw [Bool.eq_iff_iff, Reading.clean_iff, decide_eq_true_iff, hlast,
        DiagnosticLog.count_reportAll, ← List.length_eq_zero_iff,
        show log.count = 0 from rfl, Nat.zero_add]
    refine hglobals.trans ?_
    rw [hclean, log.globalMessages_reportAll hpoints]
    have hnames' : last.names = namesOf source := hnames
    rw [hnames']
    simp only [decide_eq_true_eq]
    rfl

end Netlist
