import Netlist.Proofs.Growth
import Netlist.Proofs.Segmentation

/-!
# Readings, segment by segment

A reading passes segment after segment until it reaches its limit on errors or no segment is left.
`Reading.Passes r gs last` says that `r` passes the segments `gs` below its limit and is then at
`last`; a reading that comes to the end of the input so (`Reading.ReachesEnd`) ends with the checks
of the whole draft.

## Results

* `Reading.ReachesEnd.readOn_eq`: what a reading answers that comes to the end of the input.
* `Reading.exists_reachesEnd`: without a limit, every reading comes there.
* `Reading.Passes.grown`: along the way, names, circuit and diagnostics only grow.
-/

namespace Netlist

/-- Errors of the whole source are numbered on. -/
theorem DiagnosticLog.diagnostics_foldl_reportGlobal (log : DiagnosticLog)
    (problems : List Problem) :
    (problems.foldl (fun log p => log.reportGlobal p.message) log).diagnostics =
      log.diagnostics ++ (problems.map Problem.message).mapIdx fun i message =>
        ⟨log.count + i + 1, message, none⟩ := by
  induction problems generalizing log with
  | nil => exact (List.append_nil _).symm
  | cons problem problems ih =>
    have hcount : (log.reportGlobal problem.message).count = log.count + 1 :=
      List.length_append
    rw [List.foldl_cons, ih, hcount, List.map_cons, List.mapIdx_cons, reportGlobal, add,
      List.append_assoc]
    have hnumber (i : Nat) : log.count + (i + 1) + 1 = log.count + 1 + i + 1 := by omega
    simp only [hnumber, Nat.add_zero, List.singleton_append]

namespace Reading

/-- The reading passes the segments `gs` one after the other, below its limit, and is then at
`last`. -/
inductive Passes : Reading → List Segment → Reading → Prop
  | refl (r : Reading) : Passes r [] r
  | segment {r last : Reading} {g : Segment} {gs : List Segment} {stream : TokenStream}
      (next : r.stream.segment? = some (g, stream))
      (below : (r.takeSegment g stream).limitReached = false)
      (rest : Passes (r.takeSegment g stream) gs last) : Passes r (g :: gs) last

/-- The reading comes to the end of the input, at `last`, behind the segments `gs`. -/
structure ReachesEnd (r : Reading) (gs : List Segment) (last : Reading) : Prop where
  passes : r.Passes gs last
  ended : last.stream.segment? = none

variable {r last : Reading} {g : Segment} {gs : List Segment} {stream : TokenStream}

/-! ## What a reading answers -/

theorem readOn_of_none (h : r.stream.segment? = none) :
    r.readOn = (r.complete.clean, r.complete.finish) := by
  rw [readOn]
  split
  · rfl
  · rename_i h'
    rw [h] at h'
    cases h'

theorem readOn_of_some (h : r.stream.segment? = some (g, stream)) :
    r.readOn = if (r.takeSegment g stream).limitReached
      then (false, (r.takeSegment g stream).finish) else (r.takeSegment g stream).readOn := by
  rw [readOn]
  split
  · rename_i h'
    rw [h] at h'
    cases h'
  · rename_i h'
    rw [h] at h'
    cases h'
    rfl

/-- A reading that passes segments answers what it answers behind them. -/
theorem Passes.readOn_eq (h : r.Passes gs last) : r.readOn = last.readOn := by
  induction h with
  | refl => rfl
  | segment next below _ ih => rw [readOn_of_some next, below, if_neg Bool.false_ne_true, ih]

/-- **At the end of the input, the whole draft is checked.** -/
theorem ReachesEnd.readOn_eq (h : r.ReachesEnd gs last) :
    r.readOn = (last.complete.clean, last.complete.finish) := by
  rw [h.passes.readOn_eq, readOn_of_none h.ended]

/-- **Without a limit, every reading comes to the end of the input.** -/
theorem exists_reachesEnd (h : r.limit = none) : ∃ gs last, r.ReachesEnd gs last := by
  fun_induction readOn r with
  | case1 r hn => exact ⟨[], r, .refl r, hn⟩
  | case2 r g stream hg r' hr' =>
    rw [limitReached_of_none (show r'.limit = none from h)] at hr'
    cases hr'
  | case3 r g stream hg r' hr' ih =>
    obtain ⟨gs, last, hpasses, hended⟩ := ih h
    exact ⟨g :: gs, last, .segment hg (Bool.not_eq_true _ ▸ hr') hpasses, hended⟩

/-! ## Errors -/

/-- The checks at the end only add errors of the whole source. -/
theorem diagnostics_complete_eq (r : Reading) :
    r.complete.log.diagnostics = r.log.diagnostics ++
      ((r.draft.omissions r.names r.clean).map Problem.message).mapIdx fun i message =>
        ⟨r.log.count + i + 1, message, none⟩ :=
  DiagnosticLog.diagnostics_foldl_reportGlobal r.log _

theorem clean_takeSegment_iff {r : Reading} {g : Segment} {stream : TokenStream} :
    (r.takeSegment g stream).clean = true ↔ r.clean = true ∧ (r.draft.take g).1 = none := by
  rw [clean_iff, log_takeSegment, DiagnosticLog.count_reportAll, Nat.add_eq_zero_iff,
    List.length_eq_zero_iff, Option.toList_eq_nil_iff, ← clean_iff]

/-- A segment with a fault has one diagnostic more. -/
theorem exists_diagnostic_takeSegment {fault : Fault} (h : (r.draft.take g).1 = some fault)
    (stream : TokenStream) : ∃ d, (r.takeSegment g stream).log.diagnostics =
      r.log.diagnostics ++ [d] :=
  ⟨_, by rw [log_takeSegment, h]; rfl⟩

/-- **A segment is reported just if it has a fault.** -/
theorem log_takeSegment_eq_iff :
    (r.takeSegment g stream).log = r.log ↔ (r.draft.take g).1 = none := by
  constructor
  · intro hlog
    cases hfault : (r.draft.take g).1 with
    | none => rfl
    | some fault =>
      obtain ⟨d, hone⟩ := exists_diagnostic_takeSegment hfault stream
      rw [hlog] at hone
      exact absurd hone.symm (by simp)
  · intro hnone
    rw [log_takeSegment, hnone]
    rfl

/-- Only an error reaches a limit. -/
theorem not_clean_of_limitReached {r : Reading} (h : r.limitReached = true) :
    r.clean = false := by
  unfold limitReached at h
  split at h
  · cases h
  · have hpos := of_decide_eq_true ((Bool.and_eq_true _ _).mp h).1
    rw [Bool.eq_false_iff, Ne, clean_iff]
    omega

/-- The reading behind the first segment, if there is one. -/
def behindFirst (r : Reading) : Reading :=
  match r.stream.segment? with
  | some (g, stream) => r.takeSegment g stream
  | none => r

theorem exists_passes_behindFirst {r : Reading} (h : r.limit = none) :
    ∃ gs, r.Passes gs r.behindFirst := by
  unfold behindFirst
  split
  · rename_i hg
    exact ⟨_, .segment hg (limitReached_of_none h) (.refl _)⟩
  · exact ⟨[], .refl r⟩

/-! ## What grows along the way -/

/-- `r'` has all the names and diagnostics of `r`, and its circuit has grown out of that of `r`. -/
structure Grown (r r' : Reading) : Prop where
  diagnostics : r.log.diagnostics <+: r'.log.diagnostics
  names : r.names ≤ r'.names
  circuit : r.circuit.Grown r'.circuit

theorem Grown.refl (r : Reading) : r.Grown r :=
  ⟨List.prefix_refl _, NameTable.le_rfl, Relation.ReflTransGen.refl⟩

theorem Grown.trans {r r' r'' : Reading} (h : r.Grown r') (h' : r'.Grown r'') : r.Grown r'' :=
  ⟨h.diagnostics.trans h'.diagnostics, NameTable.le_trans h.names h'.names,
    Relation.ReflTransGen.trans h.circuit h'.circuit⟩

theorem Grown.count_le {r r' : Reading} (h : r.Grown r') : r.log.count ≤ r'.log.count :=
  h.diagnostics.length_le

theorem diagnostics_prefix_add (log : DiagnosticLog) (message : String)
    (excerpt : Option Excerpt) : log.diagnostics <+: (log.add message excerpt).diagnostics :=
  List.prefix_append _ _

theorem grown_takeSegment (h : r.stream.segment? = some (g, stream)) :
    r.Grown (r.takeSegment g stream) where
  diagnostics := by
    rw [log_takeSegment]
    cases (r.draft.take g).1 with
    | none => exact List.prefix_refl _
    | some fault => exact diagnostics_prefix_add _ _ _
  names := TokenStream.le_names_segment? h
  circuit := r.draft.grown_take g

theorem Passes.grown (h : r.Passes gs last) : r.Grown last := by
  induction h with
  | refl r => exact .refl r
  | segment next _ _ ih => exact (grown_takeSegment next).trans ih

/-- A segment has at most one error. -/
theorem count_takeSegment_le (r : Reading) (g : Segment) (stream : TokenStream) :
    (r.takeSegment g stream).log.count ≤ r.log.count + 1 := by
  rw [log_takeSegment, DiagnosticLog.count_reportAll]
  cases (r.draft.take g).1 with
  | none => exact Nat.le_succ _
  | some fault => exact Nat.le_refl _

end Reading

/-- A session grows while it reads a definition. -/
theorem Session.grown_passes {s : Session} {source : String} {limit : Option Nat}
    {gs : List Segment} {r : Reading} (h : (s.read source limit).Passes gs r) :
    s.Grown (ofReading r) :=
  (s.grown_read source limit).trans ⟨h.grown.names, h.grown.circuit⟩

end Netlist
