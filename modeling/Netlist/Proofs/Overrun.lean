import Netlist.Proofs.Ordering
import Netlist.Proofs.Reporting

/-!
# Reports that pass their limit

A limit on errors is asked for behind every segment, but not by the checks at the end of the input.
So the errors of segments are never more than the limit allows, and when they are as many, nothing
else is reported. A reading that comes to the end of the input below its limit reports all that is
missing there, and may pass its limit with that.

It passes it by two at most: there are three checks, and the first one is not made when there was an
error before.

## Results

* `Draft.length_omissions_le_two`: how much is missing where there was an error.
* `Reading.ReachesEnd.stop_check_some`: what a check with a limit reports at the limit.
* `limited_check`: **how many errors a check with a limit reports.**
-/

namespace Netlist

/-- Where there was an error, at most two things are missing at the end of the input. -/
theorem Draft.length_omissions_le_two (d : Draft) (names : NameTable) :
    (d.omissions names false).length ≤ 2 := by
  have hone : ∀ o : Option Problem, o.toList.length ≤ 1 := fun o => by cases o <;> simp
  have hinputs := hone (d.unconnectedInputs names)
  have hunused := hone (d.unusedDevices names)
  -- The check for the sections is only made without an error before.
  have hnone : d.absentSection false = none := rfl
  unfold omissions
  rw [hnone, List.length_append, List.length_append, Option.toList_none, List.length_nil]
  omega

namespace Reading

variable {source : String} {r last : Reading} {gs : List Segment} {m : Nat}

/-- The checks at the end of the input add at most three errors, and at most two if there was an
error before. -/
theorem count_complete (r : Reading) : r.log.count ≤ r.complete.log.count ∧
    r.complete.log.count ≤ r.log.count + if r.log.count = 0 then 3 else 2 := by
  have hcount : r.complete.log.count =
      r.log.count + (r.draft.omissions r.names r.clean).length := by
    show r.complete.log.diagnostics.length = _
    rw [diagnostics_complete_eq, List.length_append, List.length_mapIdx, List.length_map]
    rfl
  refine ⟨by omega, ?_⟩
  rw [hcount]
  split
  · exact Nat.add_le_add_left (r.draft.length_omissions_le _ _) _
  · rename_i hpos
    rw [show r.clean = false from Bool.eq_false_iff.mpr (mt clean_iff.mp hpos)]
    exact Nat.add_le_add_left (r.draft.length_omissions_le_two _) _

/-- The errors of segments have places. -/
theorem Passes.isSome_excerpt (h : (ofCheck source none).Passes gs last) :
    ∀ d ∈ last.log.diagnostics, d.excerpt.isSome = true := by
  obtain ⟨es, hes⟩ := (sorted_start source _ _ none).passes (reads_start source _ _ none) h
  intro d hd
  have hmem : d.excerpt ∈ es.map some := hes.excerpts ▸ List.mem_map_of_mem hd
  obtain ⟨e, -, he⟩ := List.mem_map.mp hmem
  rw [← he]
  rfl

/-- Where all diagnostics have a place, they are as many as those with a place. -/
theorem length_filterMap_placed? {ds : List Diagnostic}
    (h : ∀ d ∈ ds, d.excerpt.isSome = true) :
    (ds.filterMap Diagnostic.placed?).length = ds.length := by
  refine List.filterMap_length_eq_length.mpr fun {d} hd => ?_
  unfold Diagnostic.placed?
  rw [Option.isSome_map]
  exact h d hd

/-! ## With a limit and without one -/

/-- Without a limit, the errors with a place are those of the segments. -/
theorem ReachesEnd.length_positioned (h : (ofCheck source none).ReachesEnd gs last) :
    (check source none).positioned.length = last.log.count := by
  rw [h.check_eq]
  show (last.complete.log.diagnostics.filterMap Diagnostic.placed?).length = _
  rw [last.diagnostics_complete.1]
  exact length_filterMap_placed? h.passes.isSome_excerpt

theorem ReachesEnd.errorCount (h : (ofCheck source none).ReachesEnd gs last) :
    (check source none).errorCount = last.complete.log.count := by
  rw [h.check_eq]
  rfl

/-- **At the limit, a check reports errors of segments and nothing else**, just as many as are
allowed. -/
theorem ReachesEnd.stop_check_some (h : (ofCheck source none).ReachesEnd gs last)
    (hm : max 1 m ≤ last.log.count) :
    (check source (some m)).errorCount = max 1 m ∧
      (check source (some m)).positioned.length = max 1 m := by
  obtain ⟨stop, hcount, hgrown, hcheck⟩ := h.exists_stop_check hm
  rw [hcheck]
  refine ⟨hcount, ?_⟩
  show (stop.log.diagnostics.filterMap Diagnostic.placed?).length = _
  rw [length_filterMap_placed? fun d hd =>
    h.passes.isSome_excerpt d (hgrown.diagnostics.subset hd)]
  exact hcount

end Reading

/-- A report with a limit that allows `most` errors, beside the report without a limit. -/
structure Report.Limited (r whole : Report) (most : Nat) : Prop where
  /-- The errors of segments are not more than the limit allows. -/
  positioned_le : r.positioned.length ≤ most
  /-- When they are as many, nothing else is reported. -/
  stops : r.positioned.length = most → r.errorCount = most
  /-- The reading is stopped where so many errors of segments come. -/
  cut : most ≤ whole.positioned.length → r.errorCount = most
  /-- Otherwise it reports what it reports without a limit. -/
  uncut : whole.positioned.length < most → r = whole
  /-- The limit is kept just if the reading is stopped, or there are no more errors at all. -/
  kept_iff : r.errorCount ≤ most ↔ most ≤ whole.positioned.length ∨ whole.errorCount ≤ most
  /-- The limit is passed by one error, and by two only where it allows just one. -/
  overrun_le : r.errorCount ≤ max 3 (most + 1)

/-- **How many errors a check with a limit reports.** Those of segments are bounded by the limit.
The checks at the end of the input are not, when fewer errors come before them. -/
theorem limited_check (source : String) (m : Nat) :
    (check source (some m)).Limited (check source none) (max 1 m) := by
  obtain ⟨gs, last, h⟩ := Reading.exists_reachesEnd (r := Reading.ofCheck source none) rfl
  have hpositioned := h.length_positioned
  have hcount := h.errorCount
  obtain ⟨hle, hlast⟩ := last.count_complete
  -- The errors of segments are counted in the reading that comes to the end of the input.
  by_cases hm : last.log.count < max 1 m
  · have hwhole := h.check_some hm
    refine ⟨?_, ?_, by omega, fun _ => hwhole, ?_, ?_⟩
    all_goals rw [hwhole]
    · omega
    · omega
    · omega
    · split at hlast <;> omega
  · obtain ⟨hstop, hplaced⟩ := h.stop_check_some (Nat.not_lt.mp hm)
    exact ⟨by omega, fun _ => hstop, fun _ => hstop, by omega, by omega, by omega⟩

/-- A limit of one error is passed by two: the checks at the end of the input report three. -/
theorem overrun_check_gate :
    (check "DEVICE: SWITCH a = 1; AND g = 1;" (some 1)).diagnostics =
      [⟨1, "No valid CONNECTION section found in the definition file", none⟩,
        ⟨2, "Some inputs are not connected: g.I1", none⟩,
        ⟨3, "Some devices are never used: a, g", none⟩] ∧
    ¬(check "DEVICE: SWITCH a = 1; AND g = 1;" (some 1)).errorCount ≤ max 1 1 := by
  decide +kernel

end Netlist
