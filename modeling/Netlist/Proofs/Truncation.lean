import Netlist.Proofs.Checking
import Netlist.Proofs.Containment
import Netlist.Proofs.Passage

/-!
# What a limit on errors changes

A limit only cuts a reading short. As long as fewer errors come before the end of the input than the
limit allows, the reading is the one without a limit, the checks at the end included. Otherwise it
stops right behind the segment with the last error that is allowed, with what the reading without
a limit has there. A limit of 0 is a limit of 1.

## Results

* `Reading.ReachesEnd.withLimit`, `Reading.Passes.exists_stop`: a reading with a limit, beside the
  same reading without one.
* `Reading.parseTimes_parse`: asking again for a result changes nothing.
* `Reading.ReachesEnd.check_some`, `Reading.ReachesEnd.exists_stop_check`: a check below its limit,
  and a check that is stopped.
* `check_some_truncates`: **what a check with a limit answers.**
-/

namespace Netlist

namespace Reading

variable {r last : Reading} {gs : List Segment} {m : Nat}

/-! ## Another limit -/

/-- The reading with another limit. -/
def withLimit (r : Reading) (limit : Option Nat) : Reading := { r with limit }

theorem takeSegment_withLimit (r : Reading) (limit : Option Nat) (g : Segment)
    (stream : TokenStream) :
    (r.withLimit limit).takeSegment g stream = (r.takeSegment g stream).withLimit limit := rfl

theorem limitReached_withLimit_iff :
    (r.withLimit (some m)).limitReached = true ↔ max 1 m ≤ r.log.count := by
  unfold limitReached
  show (0 < r.log.count && m ≤ r.log.count : Bool) = true ↔ _
  rw [Bool.and_eq_true, decide_eq_true_iff, decide_eq_true_iff]
  omega

/-- Where few errors come, a limit is not reached. -/
theorem Passes.withLimit (h : r.Passes gs last) (hm : last.log.count < max 1 m) :
    (r.withLimit (some m)).Passes gs (last.withLimit (some m)) := by
  induction h with
  | refl r => exact .refl _
  | segment next _ rest ih =>
    refine .segment next ?_ (ih hm)
    rw [takeSegment_withLimit, Bool.eq_false_iff, Ne, limitReached_withLimit_iff]
    have := rest.grown.count_le
    omega

theorem ReachesEnd.withLimit (h : r.ReachesEnd gs last) (hm : last.log.count < max 1 m) :
    (r.withLimit (some m)).ReachesEnd gs (last.withLimit (some m)) :=
  ⟨h.passes.withLimit hm, h.ended⟩

/-- Where many errors come, a limit stops the reading at one of the readings on the way, which has
just as many errors as are allowed. -/
theorem Passes.exists_stop (h : r.Passes gs last) (hr : r.log.count < max 1 m)
    (hm : max 1 m ≤ last.log.count) :
    ∃ stop : Reading, (r.withLimit (some m)).readOn = (false, (stop.withLimit (some m)).finish) ∧
      stop.log.count = max 1 m ∧ stop.Grown last := by
  induction h with
  | refl r => omega
  | @segment r last g gs stream next _ rest ih =>
    have hread := readOn_of_some (r := r.withLimit (some m)) next
    rw [takeSegment_withLimit] at hread
    by_cases hstop : max 1 m ≤ (r.takeSegment g stream).log.count
    · -- A segment has one error at most, so the limit is not passed by.
      have hcount := r.count_takeSegment_le g stream
      refine ⟨r.takeSegment g stream, ?_, by omega, rest.grown⟩
      rw [hread, if_pos (limitReached_withLimit_iff.mpr hstop)]
    · obtain ⟨stop, hstop', hcount, hgrown⟩ := ih (by omega) hm
      refine ⟨stop, ?_, hcount, hgrown⟩
      rw [hread, if_neg (mt limitReached_withLimit_iff.mp hstop), hstop']

/-! ## Asking again -/

theorem finished_readOn (r : Reading) : r.readOn.2.finished = true := by
  fun_induction readOn r with
  | case1 r _ => rfl
  | case2 r g stream _ r' _ => rfl
  | case3 r g stream _ r' _ ih => exact ih

/-- A reading answers whether no error was reported. -/
theorem readOn_fst (r : Reading) : r.readOn.1 = r.readOn.2.clean := by
  fun_induction readOn r with
  | case1 r _ => rfl
  | case2 r g stream _ r' hr' => exact (not_clean_of_limitReached hr').symm
  | case3 r g stream _ r' _ ih => exact ih

theorem parseTimes_of_finished (h : r.finished = true) (calls : Nat) :
    r.parseTimes calls = (List.replicate calls (r.clean, r.log.count), r) := by
  have hparse : r.parse = (r.clean, r) := by
    unfold parse
    rw [if_pos h]
  induction calls with
  | zero => rfl
  | succ calls ih => simp only [parseTimes, hparse, ih, List.replicate_succ]

/-- **Asking again for a result changes nothing.** -/
theorem parseTimes_parse (r : Reading) (calls : Nat) :
    r.parse.2.parseTimes calls =
      (List.replicate calls (r.parse.1, r.parse.2.log.count), r.parse.2) := by
  by_cases h : r.finished = true
  · have hparse : r.parse = (r.clean, r) := by
      unfold parse
      rw [if_pos h]
    rw [hparse]
    exact parseTimes_of_finished h calls
  · have hparse : r.parse = r.readOn := by
      unfold parse
      rw [if_neg h]
    rw [hparse, readOn_fst]
    exact parseTimes_of_finished r.finished_readOn calls

/-! ## Checks with a limit and without one -/

section Checks

variable {source : String}

/-- A check that comes to the end of the input reports what is there behind the checks of the whole
draft. -/
theorem ReachesEnd.check_eq {limit : Option Nat} (h : (ofCheck source limit).ReachesEnd gs last) :
    check source limit = ⟨last.complete.clean, last.complete.log.diagnostics,
      last.complete.names, last.complete.circuit⟩ := by
  rw [Netlist.check_eq, h.readOn_eq]
  rfl

theorem withLimit_ofCheck (source : String) (limit : Option Nat) :
    (ofCheck source none).withLimit limit = ofCheck source limit := rfl

/-- **Below the limit, a check reports what it reports without one**, the checks at the end of the
input included. -/
theorem ReachesEnd.check_some (h : (ofCheck source none).ReachesEnd gs last)
    (hm : last.log.count < max 1 m) : check source (some m) = check source none := by
  have hlimited := h.withLimit hm
  rw [withLimit_ofCheck] at hlimited
  rw [hlimited.check_eq, h.check_eq]
  rfl

/-- **At the limit, a check reports what was there at the last error allowed.** -/
theorem ReachesEnd.exists_stop_check (h : (ofCheck source none).ReachesEnd gs last)
    (hm : max 1 m ≤ last.log.count) :
    ∃ stop : Reading, stop.log.count = max 1 m ∧ stop.Grown last ∧
      check source (some m) = ⟨false, stop.log.diagnostics, stop.names, stop.circuit⟩ := by
  obtain ⟨stop, hread, hcount, hgrown⟩ :=
    h.passes.exists_stop (show (0 : Nat) < max 1 m by omega) hm
  refine ⟨stop, hcount, hgrown, ?_⟩
  rw [withLimit_ofCheck] at hread
  rw [Netlist.check_eq, hread]
  rfl

end Checks

end Reading

/-! ## Reports -/

/-- A report that was cut short: it has the first `most` diagnostics of the whole report, and its
names, devices, drivers and monitors are among those of the whole report. -/
structure Report.Truncates (r whole : Report) (most : Nat) : Prop where
  fails : r.success = false
  count : r.errorCount = most
  diagnostics : r.diagnostics = whole.diagnostics.take most
  names : r.names.names <+: whole.names.names
  circuit : r.circuit.PartOf whole.circuit

/-- **What a check with a limit answers**, told by the errors that a check without a limit reports
before it comes to the end of the input: all, if they are fewer than the limit allows, and what was
there at the last error allowed, if they are not. Asking again for the result changes nothing. -/
theorem check_some_truncates (source : String) (m : Nat) :
    ∃ gs last, (Reading.ofCheck source none).ReachesEnd gs last ∧
      (last.log.count < max 1 m → check source (some m) = check source none) ∧
      (max 1 m ≤ last.log.count →
        (check source (some m)).Truncates (check source none) (max 1 m)) ∧
      ∀ calls, let r := (Reading.ofCheck source (some m)).parse
        r.2.parseTimes calls = (List.replicate calls (r.1, r.2.log.count), r.2) := by
  obtain ⟨gs, last, h⟩ := Reading.exists_reachesEnd (r := Reading.ofCheck source none) rfl
  refine ⟨gs, last, h, h.check_some, fun hm => ?_, fun calls => Reading.parseTimes_parse _ calls⟩
  obtain ⟨stop, hcount, hgrown, hcheck⟩ := h.exists_stop_check hm
  have hprefix : stop.log.diagnostics <+: last.complete.log.diagnostics := by
    rw [last.diagnostics_complete_eq]
    exact hgrown.diagnostics.trans (List.prefix_append _ _)
  rw [hcheck, h.check_eq]
  exact {
    fails := rfl
    count := hcount
    diagnostics := hcount ▸ List.prefix_iff_eq_take.mp hprefix
    names := hgrown.names
    circuit := hgrown.circuit.partOf }

end Netlist
