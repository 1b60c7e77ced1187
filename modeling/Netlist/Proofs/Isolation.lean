import Mathlib.Data.List.ReduceOption
import Netlist.Proofs.Blanking
import Netlist.Proofs.Outline
import Netlist.Proofs.Reporting

/-!
# Isolation of errors

A segment with a fault changes nothing but the report and the identifiers of later names. So a
source in which it is blanked out has the same circuit, read by names, and reports the same, except
for the fault.

## Results

* `Draft.Alike.takeAll`: **segments do the same to drafts of one blueprint.**
* `Draft.take_of_fault`: a segment with a fault leaves a draft as it is, unless it is a title.
* `check_blankSegment`: **blanking out a segment with a fault removes its diagnostic.**
-/

namespace Netlist

open Lexeme (ofText chunks)

/-! ## Verdicts -/

namespace Draft

/-- What becomes of segments that are taken in one after the other: each has a fault or none. -/
def verdicts (d : Draft) : List Segment → List (Option Fault)
  | [] => []
  | g :: gs => (d.take g).1 :: (d.take g).2.verdicts gs

variable {d : Draft} {gs hs : List Segment}

theorem length_verdicts (d : Draft) (gs : List Segment) : (d.verdicts gs).length = gs.length := by
  induction gs generalizing d with
  | nil => rfl
  | cons g gs ih => rw [verdicts, List.length_cons, ih, List.length_cons]

theorem takeAll_fst (d : Draft) (gs : List Segment) :
    (d.takeAll gs).1 = (d.verdicts gs).reduceOption := by
  induction gs generalizing d with
  | nil => rfl
  | cons g gs ih =>
    rw [takeAll_cons, verdicts, ih]
    cases (d.take g).1 <;> rfl

theorem takeAll_append_snd (d : Draft) (gs hs : List Segment) :
    (d.takeAll (gs ++ hs)).2 = ((d.takeAll gs).2.takeAll hs).2 := by
  induction gs generalizing d with
  | nil => rfl
  | cons g gs ih => rw [List.cons_append, takeAll_cons, takeAll_cons, ih]

theorem verdicts_append (d : Draft) (gs hs : List Segment) :
    d.verdicts (gs ++ hs) = d.verdicts gs ++ (d.takeAll gs).2.verdicts hs := by
  induction gs generalizing d with
  | nil => rfl
  | cons g gs ih => rw [List.cons_append, verdicts, ih, verdicts, takeAll_cons, List.cons_append]

/-- A segment with a fault leaves a draft as it is, unless it is a title. -/
theorem take_of_fault {c : Chunk} (hc : c.isTitle = false) {t : NameTable} {p : Position}
    {fault : Fault} (h : (d.take (c.segmentOver t p)).1 = some fault) :
    (d.take (c.segmentOver t p)).2 = d := by
  by_cases hhead : c.head.isHeading = true
  · obtain ⟨fault', hfault⟩ := d.take_bare_heading hc hhead t p
    rw [hfault]
  · unfold take at h ⊢
    split
    · rename_i s w hkind
      exact absurd (Lexeme.isHeading_iff.mpr ⟨s, w, hkind⟩) hhead
    · rename_i k w hkind
      rw [hkind] at h
      simp only at h
      split
      · rename_i d' hd'
        rw [hd'] at h
        cases h
      · rfl
    · rfl

end Draft

/-! ## Segments over two tables -/

namespace Draft

/-- Two drafts take in segments alike: the verdicts are the same, the drafts behind them are alike,
and a fault is at the end of the input only if some segment `ends` there. -/
structure AllTakenAlike (t t' : NameTable) (ends : Prop) (d d' : Draft) (gs gs' : List Segment) :
    Prop where
  verdicts : d.verdicts gs = d'.verdicts gs'
  draft : Alike t t' (d.takeAll gs).2 (d'.takeAll gs').2
  place : ∀ fault, some fault ∈ d.verdicts gs → fault.place = .endOfInput → ends

variable {t t' : NameTable} {d d' : Draft} {ends ends' : Prop} {g g' : Segment}
  {gs gs' : List Segment} {c : Chunk} {cs : List Chunk} {p p' : Position}

theorem TakenAlike.cons (h : TakenAlike t t' ends (d.take g) (d'.take g'))
    (hs : AllTakenAlike t t' ends' (d.take g).2 (d'.take g').2 gs gs') :
    AllTakenAlike t t' (ends ∨ ends') d d' (g :: gs) (g' :: gs') := by
  refine ⟨?_, hs.draft, fun fault hm hp => ?_⟩
  · rw [Draft.verdicts, Draft.verdicts, h.fault, hs.verdicts]
  · rcases List.mem_cons.mp hm with he | hm
    · exact .inl (h.place fault he.symm hp)
    · exact .inr (hs.place fault hm hp)

theorem AllTakenAlike.imp (h : AllTakenAlike t t' ends d d' gs gs') (hends : ends → ends') :
    AllTakenAlike t t' ends' d d' gs gs' :=
  ⟨h.verdicts, h.draft, fun fault hm hp => hends (h.place fault hm hp)⟩

/-- **Segments do the same to drafts of one blueprint.** -/
theorem Alike.takeAll (h : Alike t t' d d') (cs : List Chunk) (p : Position)
    (hk : ∀ c ∈ cs, t.Knows c.lexemes ∧ t'.Knows c.lexemes) :
    AllTakenAlike t t' (∃ c ∈ cs, c.Open) d d' (Chunk.segmentsOver t p cs)
      (Chunk.segmentsOver t' p cs) := by
  induction cs generalizing d d' p with
  | nil => exact ⟨rfl, h, nofun⟩
  | cons c cs ih =>
    obtain ⟨hc, hcs⟩ := List.forall_mem_cons.mp hk
    have htaken := h.take hc.1 hc.2 rfl rfl (show _ = c.headPosition p from rfl)
    refine (htaken.cons (ih htaken.draft _ hcs)).imp fun hends => ?_
    rw [List.exists_mem_cons_iff]
    exact hends

/-- White space in front of the first segment does not matter, where it ends in the same place. -/
theorem Alike.takeAll_reblank (h : Alike t t' d d') (bs : List Lexeme) (p p' : Position)
    (hk : ∀ c ∈ cs, t.Knows c.lexemes) (hk' : ∀ c ∈ Chunk.reblank bs cs, t'.Knows c.lexemes)
    (hp : ∀ c ∈ cs.head?, p'.after (bs.flatMap Lexeme.text) = c.headPosition p) :
    AllTakenAlike t t' (∃ c ∈ cs, c.Open) d d' (Chunk.segmentsOver t p cs)
      (Chunk.segmentsOver t' p' (Chunk.reblank bs cs)) := by
  cases cs with
  | nil => exact ⟨rfl, h, nofun⟩
  | cons c cs =>
    obtain ⟨hc, hcs⟩ := List.forall_mem_cons.mp hk
    obtain ⟨hc', hcs'⟩ := List.forall_mem_cons.mp hk'
    have hhead : ({ c with blank := bs } : Chunk).headPosition p' = c.headPosition p := hp c rfl
    have htaken := h.take hc hc' rfl rfl hhead
    have hend : p'.after ({ c with blank := bs } : Chunk).text = p.after c.text := by
      have hafter := hp c rfl
      unfold Chunk.headPosition at hafter
      unfold Chunk.text Chunk.lexemes
      rw [List.flatMap_append, List.flatMap_append, Position.after_append, Position.after_append,
        hafter]
    have hrest := htaken.draft.takeAll cs (p.after c.text)
      fun c hc => ⟨hcs c hc, hcs' c hc⟩
    have htail : Chunk.segmentsOver t' p' (Chunk.reblank bs (c :: cs)) =
        ({ c with blank := bs } : Chunk).segmentOver t' p' ::
          Chunk.segmentsOver t' (p.after c.text) cs := by
      rw [← hend]
      rfl
    rw [htail]
    refine (htaken.cons hrest).imp fun hends => ?_
    rw [List.exists_mem_cons_iff]
    exact hends

/-- Drafts of one blueprint show the same, read by names. -/
theorem Alike.perm_names (h : Alike t t' d d') :
    (d.circuit.deviceNames t).Perm (d'.circuit.deviceNames t') ∧
      (d.circuit.driverNames t).Perm (d'.circuit.driverNames t') ∧
      (d.circuit.monitorNames t).Perm (d'.circuit.monitorNames t') ∧
      (d.circuit.unconnectedNames t).Perm (d'.circuit.unconnectedNames t') ∧
      (d.unusedNames t).Perm (d'.unusedNames t') := by
  obtain ⟨B, hB, hB'⟩ := h.depicted
  exact ⟨hB.circuit.perm_deviceNames.trans hB'.circuit.perm_deviceNames.symm,
    hB.circuit.perm_driverNames.trans hB'.circuit.perm_driverNames.symm,
    hB.circuit.perm_monitorNames.trans hB'.circuit.perm_monitorNames.symm,
    hB.circuit.perm_unconnectedNames.trans hB'.circuit.perm_unconnectedNames.symm,
    hB.perm_unusedNames.trans hB'.perm_unusedNames.symm⟩

end Draft

/-! ## The segments of a source -/

/-- What becomes of the segments of a source that is checked without a limit. -/
def segmentVerdicts (source : String) : List (Option Fault) :=
  (Reading.ofCheck source none).draft.verdicts (Reading.ofCheck source none).stream.segments

theorem takenIn_fst (source : String) :
    (takenIn source).1 = (segmentVerdicts source).reduceOption :=
  Draft.takeAll_fst _ _

/-- A check takes in the segments of the chunks of its source. -/
theorem takenIn_eq (source : String) : takenIn source =
    (Reading.ofCheck source none).draft.takeAll
      (Chunk.segmentsOver (namesOf source) .start (chunks (ofText source.toList))) := by
  unfold takenIn namesOf
  rw [← Reading.segments_ofCheck]

theorem segmentVerdicts_eq (source : String) : segmentVerdicts source =
    (Reading.ofCheck source none).draft.verdicts
      (Chunk.segmentsOver (namesOf source) .start (chunks (ofText source.toList))) := by
  unfold segmentVerdicts namesOf
  rw [← Reading.segments_ofCheck]

theorem Chunk.segmentsOver_append (t : NameTable) (p : Position) (cs ds : List Chunk) :
    segmentsOver t p (cs ++ ds) =
      segmentsOver t p cs ++ segmentsOver t (p.after (cs.flatMap text)) ds := by
  induction cs generalizing p with
  | nil => rfl
  | cons c cs ih =>
    rw [List.cons_append, segmentsOver, ih, segmentsOver, List.flatMap_cons, Position.after_append,
      List.cons_append]

theorem Chunk.length_segmentsOver (t : NameTable) (p : Position) (cs : List Chunk) :
    (segmentsOver t p cs).length = cs.length := by
  induction cs generalizing p with
  | nil => rfl
  | cons c cs ih => rw [segmentsOver, List.length_cons, ih, List.length_cons]

/-- A text with a segment shows a character that is not white space. -/
theorem Lexeme.exists_not_blank_of_mem_chunks {cs : List Char} {c : Chunk}
    (hc : c ∈ chunks (ofText cs)) : ∃ d ∈ cs, Text.isBlank d = false := by
  obtain ⟨hcut, hsub⟩ := cut_of_mem_chunks hc
  have hhead : c.head ∈ ofText cs :=
    hsub _ (List.mem_append_right _ List.mem_cons_self)
  obtain ⟨d, hd, hb⟩ := exists_not_blank hhead hcut.head
  refine ⟨d, ?_, hb⟩
  rw [← flatMap_text_ofText cs]
  exact List.mem_flatMap.mpr ⟨_, hhead, hd⟩

theorem Reading.alike_ofCheck (source source' : String) :
    Draft.Alike (namesOf source) (namesOf source') (Reading.ofCheck source none).draft
      (Reading.ofCheck source' none).draft :=
  ⟨⟨_, depicts_ofCheck source none, depicts_ofCheck source' none⟩, rfl⟩

/-- Every fault of a check has a place. -/
theorem isSome_point_of_mem_takenIn {source : String} {fault : Fault}
    (h : fault ∈ (takenIn source).1) :
    ((DiagnosticLog.ofSource source).point fault.place).isSome = true := by
  cases hplace : fault.place with
  | token q => rfl
  | endOfInput =>
    have hknows := Reading.knows_ofCheck source none
    have htaken := (Reading.alike_ofCheck source source).takeAll _ .start
      fun c hc => ⟨(hknows c hc).2, (hknows c hc).2⟩
    rw [takenIn_fst, List.reduceOption_mem_iff, segmentVerdicts_eq] at h
    obtain ⟨c, hc, -⟩ := htaken.place fault h hplace
    rw [DiagnosticLog.point_endOfInput rfl, Option.isSome_map]
    exact Position.isSome_behindText _ (Lexeme.exists_not_blank_of_mem_chunks hc)

/-! ## Blanking out a segment of a source -/

/-- A text with the `n` characters behind the first `m` blanked out. -/
def blankOut (m n : Nat) (cs : List Char) : List Char :=
  cs.take m ++ (((cs.drop m).take n).map blanked ++ cs.drop (m + n))

/-- A source with a segment blanked out, of which the index is given. -/
def blankSegment (source : String) (k : Nat) : String :=
  let cs := chunks (ofText source.toList)
  match cs[k]? with
  | none => source
  | some c =>
    let before := (cs.take k).flatMap Chunk.text ++ c.blank.flatMap Lexeme.text
    String.ofList (blankOut before.length c.segmentText.length source.toList)

theorem blankOut_append (as bs cs : List Char) :
    blankOut as.length bs.length (as ++ (bs ++ cs)) = as ++ (bs.map blanked ++ cs) := by
  unfold blankOut
  rw [List.take_left, List.drop_left, List.take_left, ← List.drop_drop, List.drop_left,
    List.drop_left]

/-- A source and what it is when the segment of one of its chunks is blanked out. -/
structure BlanksOut (source source' : String) (before : List Chunk) (c : Chunk)
    (after : List Chunk) (bs : List Lexeme) (ds : List Char) : Prop where
  text : source.toList = before.flatMap Chunk.text ++ (c.text ++ ds)
  text' : source'.toList = before.flatMap Chunk.text ++ (c.blankedText ++ ds)
  chunks : chunks (ofText source.toList) = before ++ c :: after
  chunks' : Lexeme.chunks (ofText source'.toList) = before ++ Chunk.reblank bs after
  rest : Lexeme.chunks (ofText ds) = after
  blank : ∀ a ∈ after.head?, bs.flatMap Lexeme.text = c.blankedText ++ a.blank.flatMap Lexeme.text

theorem exists_blanksOut {source : String} {k : Nat} {c : Chunk}
    (hc : (chunks (ofText source.toList))[k]? = some c) : ∃ before after bs ds,
      before.length = k ∧ BlanksOut source (blankSegment source k) before c after bs ds := by
  unfold blankSegment
  generalize hcs : chunks (ofText source.toList) = cs at hc ⊢
  obtain ⟨hk, hget⟩ := List.getElem?_eq_some_iff.mp hc
  have hsplit : cs = cs.take k ++ c :: cs.drop (k + 1) := by
    rw [← hget, List.getElem_cons_drop, List.take_append_drop]
  obtain ⟨ds, bs, htext, hrest, hchunks, hblank⟩ := Lexeme.chunks_blanked (hcs.trans hsplit)
  have hparts : source.toList = ((cs.take k).flatMap Chunk.text ++ c.blank.flatMap Lexeme.text) ++
      (c.segmentText ++ ds) := by
    rw [htext, show c.text = c.blank.flatMap Lexeme.text ++ c.segmentText from List.flatMap_append]
    simp only [List.append_assoc]
  simp only [hc]
  rw [hparts, blankOut_append]
  have hblanked : (cs.take k).flatMap Chunk.text ++ c.blank.flatMap Lexeme.text ++
      (c.segmentText.map blanked ++ ds) =
        (cs.take k).flatMap Chunk.text ++ (c.blankedText ++ ds) := by
    unfold Chunk.blankedText
    simp only [List.append_assoc]
  rw [hblanked]
  refine ⟨cs.take k, cs.drop (k + 1), bs, ds, List.length_take_of_le hk.le, htext,
    String.toList_ofList, hcs.trans hsplit, ?_, hrest, hblank⟩
  rw [String.toList_ofList, hchunks]

theorem Position.after_blankedText (p : Position) (c : Chunk) :
    p.after c.blankedText = p.after c.text := by
  rw [show c.text = c.blank.flatMap Lexeme.text ++ c.segmentText from List.flatMap_append]
  unfold Chunk.blankedText
  rw [after_append, after_append, after_map_blanked]

namespace BlanksOut

variable {source source' : String} {before after : List Chunk} {c : Chunk} {bs : List Lexeme}
  {ds : List Char}

/-- The verdict of the segment that is blanked out is missing, and the drafts stay alike. -/
theorem verdicts (h : BlanksOut source source' before c after bs ds) (htitle : c.isTitle = false)
    {fault : Fault} (hfault : (segmentVerdicts source)[before.length]? = some (some fault)) :
    ∃ vs ws, vs.length = before.length ∧ segmentVerdicts source = vs ++ some fault :: ws ∧
      segmentVerdicts source' = vs ++ ws ∧
      Draft.Alike (namesOf source) (namesOf source') (takenIn source).2 (takenIn source').2 ∧
      (∀ f, some f ∈ vs → f.place ≠ .endOfInput) ∧
      ∀ f, some f ∈ ws → f.place = .endOfInput → after ≠ [] := by
  have hknows := Reading.knows_ofCheck source none
  have hknows' := Reading.knows_ofCheck source' none
  rw [h.chunks, List.forall_mem_append, List.forall_mem_cons] at hknows
  rw [h.chunks', List.forall_mem_append] at hknows'
  set t := namesOf source
  set t' := namesOf source'
  set p := Position.start.after (before.flatMap Chunk.text) with hp
  have hbefore := (Reading.alike_ofCheck source source').takeAll before .start
    fun b hb => ⟨(hknows.1 b hb).2, (hknows'.1 b hb).2⟩
  have hafter := hbefore.draft.takeAll_reblank bs (p.after c.text) p
    (fun a ha => (hknows.2.2 a ha).2) (fun a ha => (hknows'.2 a ha).2) fun a ha => by
      rw [h.blank a ha, Position.after_append, Position.after_blankedText]
      rfl
  have hsegments : Chunk.segmentsOver t .start (before ++ c :: after) =
      Chunk.segmentsOver t .start before ++
        c.segmentOver t p :: Chunk.segmentsOver t (p.after c.text) after :=
    Chunk.segmentsOver_append t .start before (c :: after)
  have hsegments' : Chunk.segmentsOver t' .start (before ++ Chunk.reblank bs after) =
      Chunk.segmentsOver t' .start before ++ Chunk.segmentsOver t' p (Chunk.reblank bs after) :=
    Chunk.segmentsOver_append t' .start before _
  set d := ((Reading.ofCheck source none).draft.takeAll (Chunk.segmentsOver t .start before)).2
  have hverdicts : segmentVerdicts source =
      (Reading.ofCheck source none).draft.verdicts (Chunk.segmentsOver t .start before) ++
        (d.take (c.segmentOver t p)).1 :: (d.take (c.segmentOver t p)).2.verdicts
          (Chunk.segmentsOver t (p.after c.text) after) := by
    rw [segmentVerdicts_eq, h.chunks, hsegments, Draft.verdicts_append]
    rfl
  have hfails : (d.take (c.segmentOver t p)).1 = some fault := by
    rw [hverdicts, List.getElem?_append_right (by
      rw [Draft.length_verdicts, Chunk.length_segmentsOver]), Draft.length_verdicts,
      Chunk.length_segmentsOver, Nat.sub_self] at hfault
    exact Option.some.inj hfault
  have hkeeps := Draft.take_of_fault htitle hfails
  rw [hfails, hkeeps] at hverdicts
  refine ⟨_, _, ?_, hverdicts, ?_, ?_, ?_, ?_⟩
  · rw [Draft.length_verdicts, Chunk.length_segmentsOver]
  · rw [segmentVerdicts_eq, h.chunks', hsegments', Draft.verdicts_append, ← hbefore.verdicts,
      hafter.verdicts]
  · rw [takenIn_eq, takenIn_eq, h.chunks, h.chunks', hsegments, hsegments',
      Draft.takeAll_append_snd, Draft.takeAll_append_snd, Draft.takeAll_cons, hkeeps]
    exact hafter.draft
  · intro f hf hplace
    obtain ⟨b, hb, hopen⟩ := hbefore.place f hf hplace
    exact Chunk.not_open_of_chunks h.chunks b hb hopen
  · intro f hf hplace
    obtain ⟨a, ha, -⟩ := hafter.place f hf hplace
    exact List.ne_nil_of_mem ha

/-- A place points at the same line and column in both sources, where something stands behind the
segment if it is the end of the input. -/
theorem point_eq (h : BlanksOut source source' before c after bs ds) {place : Place}
    (hplace : place = .endOfInput → after ≠ []) :
    (DiagnosticLog.ofSource source).point place = (DiagnosticLog.ofSource source').point place := by
  cases place with
  | token q => rfl
  | endOfInput =>
    obtain ⟨a, ha⟩ := List.exists_mem_of_ne_nil after (hplace rfl)
    rw [← h.rest] at ha
    have htext := Lexeme.exists_not_blank_of_mem_chunks ha
    rw [DiagnosticLog.point_endOfInput rfl, DiagnosticLog.point_endOfInput rfl, h.text, h.text']
    simp only [Position.behindText_append, Position.after_blankedText]
    rw [Option.or_assoc, Option.or_assoc, Option.or_of_isSome (Position.isSome_behindText _ htext),
      Option.or_of_isSome (Position.isSome_behindText _ htext)]

end BlanksOut

/-! ## Reports -/

/-- The second report answers the same as the first, read by names, without one diagnostic: the one
with an index among those with a place. The messages at the end of the input list the same names;
only in the second one a section can be missing. -/
structure Report.SameWithout (r r' : Report) (index : Nat) (diagnostic : String × Nat × Nat) :
    Prop where
  devices : (r.circuit.deviceNames r.names).Perm (r'.circuit.deviceNames r'.names)
  drivers : (r.circuit.driverNames r.names).Perm (r'.circuit.driverNames r'.names)
  monitors : (r.circuit.monitorNames r.names).Perm (r'.circuit.monitorNames r'.names)
  diagnostic : r.positioned[index]? = some diagnostic
  positioned : r'.positioned = r.positioned.eraseIdx index
  unconnected : (r.circuit.unconnectedNames r.names).Perm (r'.circuit.unconnectedNames r'.names)
  globals : ∃ unused unused' missing', unused.Perm unused' ∧
    r.globals = endMessages none (r.circuit.unconnectedNames r.names) unused ∧
    r'.globals = endMessages missing' (r'.circuit.unconnectedNames r'.names) unused'

/-- The diagnostics with a place are one for each fault. -/
theorem positioned_check (source : String) :
    (check source none).positioned = (segmentVerdicts source).reduceOption.filterMap
      (DiagnosticLog.ofSource source).placedFault? := by
  rw [(check_none_eq source).2.2.1, takenIn_fst]

/-- The messages at the end of the input. -/
theorem globals_check (source : String) : (check source none).globals =
    endMessages
      (if (takenIn source).1 = [] then (takenIn source).2.sections.firstMissing else none)
      ((takenIn source).2.circuit.unconnectedNames (namesOf source))
      ((takenIn source).2.unusedNames (namesOf source)) :=
  (check_none_eq source).2.2.2 fun _ => isSome_point_of_mem_takenIn

/-- A fault of a segment that points somewhere. -/
theorem exists_placedFault? {source : String} {fault : Fault}
    (h : some fault ∈ segmentVerdicts source) :
    ∃ place, (DiagnosticLog.ofSource source).point fault.place = some place ∧
      (DiagnosticLog.ofSource source).placedFault? fault =
        some (fault.problem.message, place) := by
  rw [← List.reduceOption_mem_iff, ← takenIn_fst] at h
  obtain ⟨place, hplace⟩ := Option.isSome_iff_exists.mp (isSome_point_of_mem_takenIn h)
  refine ⟨place, hplace, ?_⟩
  unfold DiagnosticLog.placedFault?
  rw [hplace]
  rfl

/-- The diagnostics with a place are the same but for the one of the segment. -/
theorem BlanksOut.positioned {source source' : String} {before after : List Chunk} {c : Chunk}
    {bs : List Lexeme} {ds : List Char} (h : BlanksOut source source' before c after bs ds)
    {vs ws : List (Option Fault)} {fault : Fault} {diagnostic : String × Nat × Nat}
    (hverdicts : segmentVerdicts source = vs ++ some fault :: ws)
    (hverdicts' : segmentVerdicts source' = vs ++ ws)
    (hvs : ∀ f, some f ∈ vs → f.place ≠ .endOfInput)
    (hws : ∀ f, some f ∈ ws → f.place = .endOfInput → after ≠ [])
    (hplaced : (DiagnosticLog.ofSource source).placedFault? fault = some diagnostic) :
    ∃ as bs, as.length = vs.reduceOption.length ∧
      (check source none).positioned = as ++ diagnostic :: bs ∧
      (check source' none).positioned = as ++ bs := by
  have hsame : ∀ us : List (Option Fault),
      (∀ f, some f ∈ us → f.place = .endOfInput → after ≠ []) →
        us.reduceOption.filterMap (DiagnosticLog.ofSource source').placedFault? =
          us.reduceOption.filterMap (DiagnosticLog.ofSource source).placedFault? :=
    fun us hus => List.filterMap_congr fun f hf => by
      unfold DiagnosticLog.placedFault?
      rw [h.point_eq (hus f (List.reduceOption_mem_iff.mp hf))]
  refine ⟨vs.reduceOption.filterMap (DiagnosticLog.ofSource source).placedFault?,
    ws.reduceOption.filterMap (DiagnosticLog.ofSource source).placedFault?, ?_, ?_, ?_⟩
  · rw [List.filterMap_length_eq_length]
    intro f hf
    have hmem : some f ∈ segmentVerdicts source := by
      rw [hverdicts]
      exact List.mem_append_left _ (List.reduceOption_mem_iff.mp hf)
    obtain ⟨place, -, hplace⟩ := exists_placedFault? hmem
    rw [hplace]
    rfl
  · rw [positioned_check, hverdicts, List.reduceOption_append, List.reduceOption_cons_of_some,
      List.filterMap_append, List.filterMap_cons_some hplaced]
  · rw [positioned_check, hverdicts', List.reduceOption_append, List.filterMap_append,
      hsame vs fun f hf he => absurd he (hvs f hf), hsame ws hws]

/-- **Blanking out a segment with a fault removes its diagnostic**, and nothing else changes, unless
the segment is a title. -/
theorem check_blankSegment {source : String} {k : Nat} {c : Chunk} {fault : Fault}
    (hc : (chunks (ofText source.toList))[k]? = some c) (htitle : c.isTitle = false)
    (hfault : (segmentVerdicts source)[k]? = some (some fault)) :
    ∃ place, (DiagnosticLog.ofSource source).point fault.place = some place ∧
      (check source none).SameWithout (check (blankSegment source k) none)
        ((segmentVerdicts source).take k).reduceOption.length (fault.problem.message, place) := by
  obtain ⟨before, after, bs, ds, rfl, h⟩ := exists_blanksOut hc
  obtain ⟨vs, ws, hlength, hverdicts, hverdicts', hdrafts, hvs, hws⟩ := h.verdicts htitle hfault
  generalize blankSegment source before.length = source' at *
  have hmem : some fault ∈ segmentVerdicts source := by
    rw [hverdicts]
    exact List.mem_append_right _ List.mem_cons_self
  obtain ⟨place, hplace, hplaced⟩ := exists_placedFault? hmem
  obtain ⟨as, cs, has, hleft, hright⟩ := h.positioned hverdicts hverdicts' hvs hws hplaced
  have hindex : ((segmentVerdicts source).take before.length).reduceOption.length = as.length := by
    rw [hverdicts, ← hlength, List.take_left, has]
  have hfaulty : (takenIn source).1 ≠ [] := by
    rw [takenIn_fst]
    exact List.ne_nil_of_mem (List.reduceOption_mem_iff.mpr hmem)
  obtain ⟨hnames, hcircuit, -, -⟩ := check_none_eq source
  obtain ⟨hnames', hcircuit', -, -⟩ := check_none_eq source'
  obtain ⟨hdevices, hdrivers, hmonitors, hunconnected, hunused⟩ := hdrafts.perm_names
  refine ⟨place, hplace, ?_⟩
  rw [← hnames, ← hnames', ← hcircuit, ← hcircuit'] at hdevices hdrivers hmonitors hunconnected
  refine ⟨hdevices, hdrivers, hmonitors, ?_, ?_, hunconnected, _, _,
    if (takenIn source').1 = [] then (takenIn source').2.sections.firstMissing else none,
    hunused, ?_, ?_⟩
  · rw [hleft, hindex, List.getElem?_append_right le_rfl, Nat.sub_self, List.getElem?_cons_zero]
  · rw [hleft, hright, hindex, List.eraseIdx_append_of_length_le le_rfl, Nat.sub_self,
      List.eraseIdx_cons_zero]
  · rw [globals_check, hnames, hcircuit, if_neg hfaulty]
  · rw [globals_check, hnames', hcircuit']

/-- A switch with a wrong state is blanked out. -/
theorem check_blankSegment_switch :
    (check "DEVICE: SWITCH a = 2; CLOCK b = 1;" none).SameWithout
      (check "DEVICE:               CLOCK b = 1;" none) 0
      ("Expect switch state to be 0 (low) or 1 (high)", 1, 20) := by
  have hsource : blankSegment "DEVICE: SWITCH a = 2; CLOCK b = 1;" 1 =
      "DEVICE:               CLOCK b = 1;" := by decide +kernel
  have hindex : ((segmentVerdicts
      "DEVICE: SWITCH a = 2; CLOCK b = 1;").take 1).reduceOption.length = 0 := by decide +kernel
  obtain ⟨place, hplace, h⟩ := @check_blankSegment "DEVICE: SWITCH a = 2; CLOCK b = 1;" 1
    ⟨[.blank [' ']], .word "SWITCH".toList,
      [.blank [' '], .word ['a'], .blank [' '], .mark '=', .blank [' '], .numeral ['2'], .mark ';']⟩
    ⟨.invalidQualifier (some .switchState), .token ⟨1, 20⟩⟩
    (by decide +kernel) (by decide +kernel) (by decide +kernel)
  obtain rfl : (1, 20) = place := Option.some.inj hplace
  rw [hsource, hindex] at h
  exact h

end Netlist
