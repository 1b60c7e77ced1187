import Netlist.Proofs.Pointing
import Netlist.Proofs.Truncation

/-!
# The order of diagnostics

A message points at the token that was read last, at one saved before, or behind the text of the
source, so the order of messages is not just the order of reading. But each segment has one error at
most, which points into the text of the segment, and segments do not overlap. So the messages come
in the order of their places, and those about the whole source come last.

## Results

* `Reading.Sorted.takeSegment`: a segment keeps the places sorted, and before what is left.
* `Reading.exists_passes`: how a reading ends.
* `Session.inOrder_read`: **diagnostics come in the order of the source.**
-/

namespace Netlist

/-! ## Numbers -/

namespace DiagnosticLog

variable {log : DiagnosticLog}

/-- Whether the diagnostics have the numbers from 1 on. -/
def Numbered (log : DiagnosticLog) : Prop :=
  log.diagnostics.map Diagnostic.number = List.range' 1 log.count

theorem Numbered.add (h : log.Numbered) (message : String) (excerpt : Option Excerpt) :
    (log.add message excerpt).Numbered := by
  unfold Numbered at h ⊢
  rw [count_add, List.range'_1_concat, ← h]
  show (log.diagnostics ++ [_]).map Diagnostic.number = _
  rw [List.map_append, Nat.add_comm 1]
  rfl

theorem Numbered.reportAll (h : log.Numbered) (faults : List Fault) :
    (log.reportAll faults).Numbered := by
  induction faults generalizing log with
  | nil => exact h
  | cons fault faults ih => exact ih (h.add _ _)

theorem Numbered.reportGlobals (h : log.Numbered) (problems : List Problem) :
    (problems.foldl (fun log p => log.reportGlobal p.message) log).Numbered := by
  induction problems generalizing log with
  | nil => exact h
  | cons problem problems ih => exact ih (h.add _ _)

end DiagnosticLog

namespace Reading

variable {source : String} {r last : Reading} {g : Segment} {gs : List Segment}
  {stream : TokenStream}

theorem numbered_readOn (h : r.log.Numbered) : r.readOn.2.log.Numbered := by
  refine readOn_induction (P := fun r => r.log.Numbered) r (fun r g stream _ hr => ?_)
    (fun r hr => hr.reportGlobals _) (fun _ hr => hr) h
  rw [log_takeSegment]
  exact hr.reportAll _

/-! ## Places -/

/-- The diagnostics of a reading so far point at places of the source, one behind the other, and
all of them before what is left of it. -/
structure Sorted (r : Reading) (es : List Excerpt) : Prop where
  excerpts : r.log.diagnostics.map Diagnostic.excerpt = es.map some
  increasing : es.Pairwise fun e e' => e.position.Before e'.position
  passed : ∀ e ∈ es, r.stream.segment? = none ∨ e.position.Before r.stream.position

theorem sorted_start (source : String) (names : NameTable) (c : Circuit) (limit : Option Nat) :
    (start source names c limit).Sorted [] := ⟨rfl, .nil, nofun⟩

/-- **A segment keeps the places sorted.** -/
theorem Sorted.takeSegment {es : List Excerpt} (h : r.Sorted es) (hr : r.Reads source)
    (hg : r.stream.segment? = some (g, stream)) :
    ∃ es', (r.takeSegment g stream).Sorted es' := by
  have hpassed : ∀ e ∈ es, e.position.Before r.stream.position := fun e he => by
    rcases h.passed e he with hn | hbefore
    · rw [hg] at hn
      cases hn
    · exact hbefore
  have hlog := r.log_takeSegment g stream
  cases hfault : (r.draft.take g).1 with
  | none =>
    rw [hfault] at hlog
    refine ⟨es, ?_, h.increasing, fun e he => .inr ?_⟩
    · rw [hlog]
      exact h.excerpts
    · exact (hpassed e he).trans (hr.before_behind hg)
  | some fault =>
    obtain ⟨-, e, he, hfrom, hto⟩ := hr.exists_excerpt hg hfault
    have hbefore : ∀ e' ∈ es, e'.position.Before e.position := fun e' he' =>
      (hpassed e' he').of_not_before hfrom
    rw [hfault] at hlog
    refine ⟨es ++ [e], ?_, ?_, ?_⟩
    · rw [hlog]
      show (r.log.diagnostics ++ [_]).map Diagnostic.excerpt = _
      rw [List.map_append, h.excerpts, List.map_append, List.map_singleton, he]
      rfl
    · rw [List.pairwise_append]
      exact ⟨h.increasing, List.pairwise_singleton _ _, by simpa using hbefore⟩
    · intro e' he'
      rcases List.mem_append.mp he' with he' | he'
      · exact hto.imp_right (hbefore e' he').trans
      · obtain rfl := List.mem_singleton.mp he'
        exact hto

theorem Sorted.passes {es : List Excerpt} (h : r.Sorted es) (hr : r.Reads source)
    (hlast : r.Passes gs last) : ∃ es', last.Sorted es' := by
  induction hlast generalizing es with
  | refl r => exact ⟨es, h⟩
  | segment next _ _ ih =>
    obtain ⟨es', hes'⟩ := h.takeSegment hr next
    exact ih hes' (hr.takeSegment next)

/-! ## How a reading ends -/

/-- The reading is stopped by its limit, at `last`, right behind a segment. -/
structure StopsAt (r last : Reading) : Prop where
  passes : ∃ gs mid g stream, r.Passes gs mid ∧ mid.stream.segment? = some (g, stream) ∧
    last = mid.takeSegment g stream
  reached : last.limitReached = true

theorem StopsAt.readOn_eq (h : r.StopsAt last) : r.readOn = (false, last.finish) := by
  obtain ⟨gs, mid, g, stream, hpasses, hg, rfl⟩ := h.passes
  rw [hpasses.readOn_eq, readOn_of_some hg, if_pos h.reached]

/-- **A reading comes to the end of the input, or its limit stops it.** -/
theorem exists_passes (r : Reading) :
    (∃ gs last, r.ReachesEnd gs last) ∨ ∃ last, r.StopsAt last := by
  fun_induction readOn r with
  | case1 r h => exact .inl ⟨[], r, .refl r, h⟩
  | case2 r g stream hg r' hr' => exact .inr ⟨r', ⟨[], r, g, stream, .refl r, hg, rfl⟩, hr'⟩
  | case3 r g stream hg r' hr' ih =>
    have hbelow : r'.limitReached = false := Bool.not_eq_true _ ▸ hr'
    rcases ih with ⟨gs, last, hpasses, hended⟩ | ⟨last, ⟨gs, mid, g', stream', hpasses, hmid⟩, hl⟩
    · exact .inl ⟨g :: gs, last, .segment hg hbelow hpasses, hended⟩
    · exact .inr ⟨last, ⟨g :: gs, mid, g', stream', .segment hg hbelow hpasses, hmid⟩, hl⟩

end Reading

theorem Draft.length_omissions_le (d : Draft) (names : NameTable) (faultless : Bool) :
    (d.omissions names faultless).length ≤ 3 := by
  have hone : ∀ o : Option Problem, o.toList.length ≤ 1 := fun o => by cases o <;> simp
  have habsent := hone (d.absentSection faultless)
  have hinputs := hone (d.unconnectedInputs names)
  have hunused := hone (d.unusedDevices names)
  unfold omissions
  rw [List.length_append, List.length_append]
  omega

/-! ## Diagnostics -/

/-- The diagnostics of a whole reading: those with a place, then those about the whole source. -/
structure Reading.InOrder (r : Reading) (placed globals : List Diagnostic) : Prop where
  diagnostics : r.parse.2.log.diagnostics = placed ++ globals
  numbers : (placed ++ globals).map Diagnostic.number = List.range' 1 r.parse.2.log.count
  /-- Places come in the order of the source, and never twice. -/
  places : ∃ es : List Excerpt, placed.map Diagnostic.excerpt = es.map some ∧
    es.Pairwise fun e e' => e.position.Before e'.position
  global : ∀ d ∈ globals, d.isGlobal = true
  few : globals.length ≤ 3
  /-- Only the checks at the end of the input report errors of the whole source. -/
  ends : (∃ gs last, r.ReachesEnd gs last ∧ last.log.diagnostics = placed) ∨
    (∃ last, r.StopsAt last ∧ last.log.diagnostics = placed) ∧ globals = []
  /-- The answer is whether there are no errors. -/
  answer : r.parse.1 = true ↔ r.parse.2.log.count = 0

/-- The checks at the end of the input add at most three errors, of the whole source. -/
theorem Reading.exists_globals (r : Reading) :
    ∃ globals, r.complete.log.diagnostics = r.log.diagnostics ++ globals ∧
      (∀ d ∈ globals, d.isGlobal = true) ∧ globals.length ≤ 3 := by
  refine ⟨_, r.diagnostics_complete_eq, fun d hd => ?_, ?_⟩
  · obtain ⟨i, _, rfl⟩ := List.mem_mapIdx.mp hd
    rfl
  · rw [List.length_mapIdx, List.length_map]
    exact r.draft.length_omissions_le _ _

/-- **Diagnostics come in the order of the source**, whatever was read before. -/
theorem Session.inOrder_read (s : Session) (source : String) (limit : Option Nat) :
    ∃ placed globals, (s.read source limit).InOrder placed globals := by
  have hparse : (s.read source limit).parse = (s.read source limit).readOn := rfl
  have hreads : (s.read source limit).Reads source := Reading.reads_start source _ _ limit
  have hsorted : (s.read source limit).Sorted [] := Reading.sorted_start source _ _ limit
  have hnumbers : (s.read source limit).readOn.2.log.Numbered := Reading.numbered_readOn rfl
  have hanswer := (s.read source limit).readOn_fst
  generalize s.read source limit = r at hparse hreads hsorted hnumbers hanswer ⊢
  rw [← hparse] at hnumbers hanswer
  rcases r.exists_passes with ⟨gs, last, hend⟩ | ⟨last, hstop⟩
  · obtain ⟨globals, hdiagnostics, hglobal, hfew⟩ := last.exists_globals
    obtain ⟨es, hes⟩ := hsorted.passes hreads hend.passes
    have hall : r.parse.2.log.diagnostics = last.log.diagnostics ++ globals := by
      rw [hparse, hend.readOn_eq]
      exact hdiagnostics
    exact ⟨last.log.diagnostics, globals, {
      diagnostics := hall
      numbers := hall ▸ hnumbers
      places := ⟨es, hes.excerpts, hes.increasing⟩
      global := hglobal
      few := hfew
      ends := .inl ⟨gs, last, hend, rfl⟩
      answer := by rw [hanswer, Reading.clean_iff] }⟩
  · obtain ⟨gs, mid, g, stream, hpasses, hg, hlast⟩ := hstop.passes
    obtain ⟨es, hes⟩ := hsorted.passes hreads hpasses
    obtain ⟨es', hes'⟩ := hes.takeSegment (hreads.passes hpasses) hg
    rw [← hlast] at hes'
    have hall : r.parse.2.log.diagnostics = last.log.diagnostics ++ [] := by
      rw [hparse, hstop.readOn_eq, List.append_nil]
      rfl
    exact ⟨last.log.diagnostics, [], {
      diagnostics := hall
      numbers := hall ▸ hnumbers
      places := ⟨es', hes'.excerpts, hes'.increasing⟩
      global := nofun
      few := Nat.zero_le _
      ends := .inr ⟨⟨last, hstop, rfl⟩, rfl⟩
      answer := by rw [hanswer, Reading.clean_iff] }⟩

end Netlist
