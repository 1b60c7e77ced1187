import Netlist.Proofs.Checking
import Netlist.Proofs.Excerpts
import Netlist.Proofs.Layout
import Netlist.Proofs.Passage
import Netlist.Proofs.Placement

/-!
# Checking a text laid out anew

White space and comments separate tokens, and nothing else about them matters: two texts that are
laid out differently are cut into the same segments at other positions, and a segment does the same
wherever it stands. So both checks answer the same, but for lines, columns and excerpts.

## Results

* `TokenStream.SameText.segment?`: streams of the same text have the same segments, moved.
* `Reading.SameText.readOn`: readings of the same text, side by side.
* `check_relaid`: **a check does not depend on the layout of its source.**
-/

namespace Netlist

open Lexeme (plain tokensOver nextChunk? splitStop splitSegment colonFollows)

/-! ## Lexemes without the texts of white space -/

namespace Lexeme

@[simp] theorem isBlank_plain (l : Lexeme) : l.plain.isBlank = l.isBlank := by cases l <;> rfl

@[simp] theorem isHeading_plain (l : Lexeme) : l.plain.isHeading = l.isHeading := by
  cases l <;> rfl

@[simp] theorem interned_plain (l : Lexeme) : l.plain.interned = l.interned := by cases l <;> rfl

@[simp] theorem kindOver_plain (t : NameTable) (l : Lexeme) : l.plain.kindOver t = l.kindOver t := by
  cases l <;> rfl

theorem plain_eq_mark_iff {l : Lexeme} {c : Char} : l.plain = .mark c ↔ l = .mark c := by
  cases l <;> simp [plain]

theorem dropWhile_map_plain (ls : List Lexeme) :
    (ls.map plain).dropWhile isBlank = (ls.dropWhile isBlank).map plain := by
  rw [List.dropWhile_map]
  congr 2
  funext l
  exact isBlank_plain l

theorem takeWhile_map_plain (ls : List Lexeme) :
    (ls.map plain).takeWhile isBlank = (ls.takeWhile isBlank).map plain := by
  rw [List.takeWhile_map]
  congr 2
  funext l
  exact isBlank_plain l

theorem colonFollows_map_plain (ls : List Lexeme) :
    colonFollows (ls.map plain) = colonFollows ls := by
  unfold colonFollows
  rw [dropWhile_map_plain]
  cases ls.dropWhile isBlank with
  | nil => rfl
  | cons l ms => simp only [List.map_cons, List.head?_cons, Option.some_inj, plain_eq_mark_iff]

theorem splitStop_map_plain (ls : List Lexeme) :
    splitStop (ls.map plain) = ((splitStop ls).1.map plain, (splitStop ls).2.map plain) := by
  induction ls with
  | nil => rfl
  | cons l ls ih =>
    rw [List.map_cons, splitStop, splitStop]
    simp only [plain_eq_mark_iff, ih]
    split <;> rfl

theorem splitSegment_map_plain (l : Lexeme) (ls : List Lexeme) :
    splitSegment l.plain (ls.map plain) =
      ((splitSegment l ls).1.map plain, (splitSegment l ls).2.map plain) := by
  unfold splitSegment
  simp only [plain_eq_mark_iff, isHeading_plain, colonFollows_map_plain, splitStop_map_plain,
    takeWhile_map_plain, dropWhile_map_plain]
  split
  · rfl
  · split
    · simp [plain]
    · rfl

/-- Without the texts of white space, the tokens at one position are those of the lexemes. -/
theorem map_move_tokensOver (t : NameTable) (p q : Position) (ls : List Lexeme) :
    (tokensOver t p ls).map (Token.move fun _ => q) =
      (ls.map plain).map fun l => ⟨l.kindOver t, q⟩ := by
  induction ls generalizing p with
  | nil => rfl
  | cons l ls ih =>
    rw [tokensOver_cons, List.map_cons, ih, List.map_cons, List.map_cons, kindOver_plain]
    rfl

end Lexeme

/-! ## Chunks -/

namespace Chunk

/-- The chunk without the texts of its white space. -/
def plain (c : Chunk) : Chunk := ⟨c.blank.map Lexeme.plain, c.head.plain, c.tail.map Lexeme.plain⟩

theorem lexemes_plain (c : Chunk) : c.plain.lexemes = c.lexemes.map Lexeme.plain := by
  unfold lexemes
  rw [List.map_append, List.map_cons]
  rfl

theorem map_move_tailOver (t : NameTable) (p q : Position) (l : Lexeme) (tail : List Lexeme) :
    (tailOver t p l tail).map (Token.move fun _ => q) =
      let ts : List Token := (tail.map Lexeme.plain).map fun l => ⟨l.kindOver t, q⟩
      if l.plain.isHeading && colonFollows (tail.map Lexeme.plain)
        then ts.dropWhile (·.kind = .space) else ts := by
  unfold tailOver
  rw [Lexeme.isHeading_plain, Lexeme.colonFollows_map_plain]
  split
  · rw [← dropWhile_map_move, Lexeme.map_move_tokensOver]
  · rw [Lexeme.map_move_tokensOver]

/-- With all its positions moved to one, a segment does not depend on the texts of its white
space. -/
theorem move_segmentOver {t : NameTable} {c c' : Chunk} (h : c.plain = c'.plain)
    (p p' q : Position) :
    (c.segmentOver t p).move (fun _ => q) = (c'.segmentOver t p').move fun _ => q := by
  obtain ⟨-, hhead, htail⟩ := Chunk.mk.inj h
  have hkind : c.head.kindOver t = c'.head.kindOver t := by
    rw [← Lexeme.kindOver_plain, hhead, Lexeme.kindOver_plain]
  unfold Segment.move segmentOver
  simp only [map_move_tailOver, hhead, htail, hkind, Token.move]

end Chunk

theorem Lexeme.nextChunk?_map_plain (ls : List Lexeme) :
    nextChunk? (ls.map plain) =
      (nextChunk? ls).map fun (c, rest) => (c.plain, rest.map plain) := by
  unfold nextChunk?
  rw [dropWhile_map_plain, takeWhile_map_plain]
  cases ls.dropWhile isBlank with
  | nil => rfl
  | cons l ms =>
    simp only [List.map_cons, splitSegment_map_plain]
    rfl

/-! ## Streams -/

namespace TokenStream

/-- Two streams of the same text, laid out differently. -/
structure SameText (s s' : TokenStream) : Prop where
  left : s.Sound
  right : s'.Sound
  pending : s.pending.map plain = s'.pending.map plain
  names : s.names = s'.names

variable {s s' : TokenStream}

theorem flatMap_interned_of_plain {ls ls' : List Lexeme} (h : ls.map plain = ls'.map plain) :
    ls.flatMap Lexeme.interned = ls'.flatMap Lexeme.interned := by
  have hplain (ms : List Lexeme) :
      (ms.map plain).flatMap Lexeme.interned = ms.flatMap Lexeme.interned := by
    rw [List.flatMap_map]
    simp only [Lexeme.interned_plain]
  rw [← hplain, h, hplain]

theorem SameText.allNames (h : s.SameText s') : s.allNames = s'.allNames := by
  unfold TokenStream.allNames
  rw [h.names, flatMap_interned_of_plain h.pending]

/-- **Streams of the same text have the same segments**, at other positions, and are of the same
text behind them. -/
theorem SameText.segment? (h : s.SameText s') (q : Position) :
    Option.Rel (fun x x' => x.1.move (fun _ => q) = x'.1.move (fun _ => q) ∧ x.2.SameText x'.2)
      s.segment? s'.segment? := by
  have hchunk := Lexeme.nextChunk?_map_plain s.pending
  rw [h.pending, Lexeme.nextChunk?_map_plain] at hchunk
  rw [segment?_eq h.left NameTable.le_rfl,
    segment?_eq h.right (NameTable.le_rfl (t := s'.allNames)), ← h.allNames]
  cases hc : nextChunk? s.pending with
  | none =>
    rw [hc, Option.map_none, Option.map_eq_none_iff] at hchunk
    rw [hchunk]
    exact .none
  | some x =>
    rw [hc, Option.map_some, Option.map_eq_some_iff] at hchunk
    obtain ⟨x', hc', he⟩ := hchunk
    obtain ⟨hplain, hrest⟩ := Prod.mk.inj he
    rw [hc']
    refine .some ⟨Chunk.move_segmentOver hplain.symm _ _ q, h.left.behind _ _, h.right.behind _ _,
      hrest.symm, ?_⟩
    have hlexemes : x'.1.lexemes.map plain = x.1.lexemes.map plain := by
      rw [← Chunk.lexemes_plain, hplain, Chunk.lexemes_plain]
    unfold TokenStream.behind
    simp only [h.names, flatMap_interned_of_plain hlexemes]

end TokenStream

/-! ## Diagnostics -/

/-- A diagnostic without its excerpt, but with whether it has one. -/
def Diagnostic.unplaced (d : Diagnostic) : Nat × String × Bool := (d.number, d.message, d.isGlobal)

theorem DiagnosticLog.count_of_unplaced {log log' : DiagnosticLog}
    (h : log.diagnostics.map Diagnostic.unplaced = log'.diagnostics.map Diagnostic.unplaced) :
    log.count = log'.count := by
  have hlength := congrArg List.length h
  rwa [List.length_map, List.length_map] at hlength

theorem DiagnosticLog.map_unplaced_add {log log' : DiagnosticLog} {e e' : Option Excerpt}
    (h : log.diagnostics.map Diagnostic.unplaced = log'.diagnostics.map Diagnostic.unplaced)
    (he : e.isNone = e'.isNone) (message : String) :
    (log.add message e).diagnostics.map Diagnostic.unplaced =
      (log'.add message e').diagnostics.map Diagnostic.unplaced := by
  unfold add
  rw [List.map_append, List.map_append, h, count_of_unplaced h]
  simp [Diagnostic.unplaced, Diagnostic.isGlobal, he]

/-! ## Readings -/

namespace Reading

/-- As long as there is a segment to be read, the end of the input can be pointed at. -/
def Shows (r : Reading) : Prop :=
  (∃ l ∈ r.stream.pending, l.isBlank = false) → r.log.endExcerpt.isSome = true

/-- Two readings of the same text, laid out differently. -/
structure SameText (r r' : Reading) : Prop where
  stream : r.stream.SameText r'.stream
  draft : r.draft = r'.draft
  log : r.log.diagnostics.map Diagnostic.unplaced = r'.log.diagnostics.map Diagnostic.unplaced
  limit : r.limit = r'.limit
  left : r.Shows
  right : r'.Shows

variable {r r' : Reading} {g : Segment} {stream : TokenStream}

/-- A fault of a segment has an excerpt. -/
theorem Shows.isNone_excerpt (h : r.Shows) (hs : r.stream.Sound)
    (hg : r.stream.segment? = some (g, stream)) (place : Place) :
    (r.log.excerpt place).isNone = false := by
  cases place with
  | token p => rfl
  | endOfInput =>
    have hne : nextChunk? r.stream.pending ≠ none := by
      rw [Ne, ← TokenStream.segment?_eq_none_iff hs, hg]
      exact Option.some_ne_none _
    rw [Ne, Lexeme.nextChunk?_eq_none_iff, not_forall] at hne
    obtain ⟨l, hl⟩ := hne
    rw [Classical.not_imp, Bool.not_eq_true] at hl
    rw [← Option.not_isSome, Bool.not_eq_false']
    exact h ⟨l, hl⟩

theorem Shows.takeSegment (h : r.Shows) (hs : r.stream.Sound)
    (hg : r.stream.segment? = some (g, stream)) : (r.takeSegment g stream).Shows := by
  rintro ⟨l, hl, hb⟩
  have hlog : (r.takeSegment g stream).log.endExcerpt = r.log.endExcerpt := by
    rw [log_takeSegment]
    cases (r.draft.take g).1 <;> rfl
  rw [hlog]
  refine h ⟨l, ?_, hb⟩
  rw [TokenStream.segment?_eq hs NameTable.le_rfl] at hg
  obtain ⟨⟨c, rest⟩, hc, he⟩ := Option.map_eq_some_iff.mp hg
  obtain ⟨-, rfl⟩ := Prod.mk.inj he
  rw [← Lexeme.lexemes_append_of_nextChunk? hc]
  exact List.mem_append_right _ hl

/-- The next segments differ in their positions only, and do the same to both readings. -/
theorem SameText.takeSegment (h : r.SameText r') (hg : r.stream.segment? = some (g, stream)) :
    ∃ g' stream', r'.stream.segment? = some (g', stream') ∧
      (r.takeSegment g stream).SameText (r'.takeSegment g' stream') := by
  have hsegment := h.stream.segment? .start
  rw [hg] at hsegment
  generalize hg' : r'.stream.segment? = x at hsegment
  obtain ⟨g', stream', rfl, hmove, hstream⟩ : ∃ g' stream', x = some (g', stream') ∧
      g.move (fun _ => .start) = g'.move (fun _ => .start) ∧ stream.SameText stream' := by
    cases hsegment with
    | some hrel => exact ⟨_, _, rfl, hrel⟩
  refine ⟨g', stream', rfl, ?_⟩
  obtain ⟨hfault, hdraft⟩ := r.draft.take_of_move hmove
  refine ⟨hstream, ?_, ?_, h.limit, h.left.takeSegment h.stream.left hg,
    h.right.takeSegment h.stream.right hg'⟩
  · show (r.draft.take g).2 = (r'.draft.take g').2
    rw [← h.draft, hdraft]
  · rw [log_takeSegment, log_takeSegment, ← h.draft]
    cases hf : (r.draft.take g).1 with
    | none =>
      rw [hf, Option.map_none, eq_comm, Option.map_eq_none_iff] at hfault
      rw [hfault]
      exact h.log
    | some fault =>
      rw [hf, Option.map_some, eq_comm, Option.map_eq_some_iff] at hfault
      obtain ⟨fault', hf', hproblem⟩ := hfault
      rw [hf']
      show (r.log.add fault.problem.message _).diagnostics.map _ =
        (r'.log.add fault'.problem.message _).diagnostics.map _
      rw [hproblem]
      refine DiagnosticLog.map_unplaced_add h.log ?_ _
      rw [h.left.isNone_excerpt h.stream.left hg, h.right.isNone_excerpt h.stream.right hg']

theorem SameText.count (h : r.SameText r') : r.log.count = r'.log.count :=
  DiagnosticLog.count_of_unplaced h.log

theorem SameText.limitReached (h : r.SameText r') : r.limitReached = r'.limitReached := by
  unfold Reading.limitReached
  rw [h.limit, h.count]

theorem SameText.clean (h : r.SameText r') : r.clean = r'.clean := by
  unfold Reading.clean
  rw [h.count]

end Reading

/-! ## Reports -/

/-- Two reports that differ in the lines, the columns and the excerpts of their diagnostics only. -/
structure Report.SameButPlaces (r r' : Report) : Prop where
  success : r.success = r'.success
  errorCount : r.errorCount = r'.errorCount
  diagnostics : r.diagnostics.map Diagnostic.unplaced = r'.diagnostics.map Diagnostic.unplaced
  names : r.names = r'.names
  circuit : r.circuit = r'.circuit

namespace Reading

/-- The report of an answer. -/
def report (x : Bool × Reading) : Report := ⟨x.1, x.2.log.diagnostics, x.2.names, x.2.circuit⟩

variable {r r' : Reading}

theorem SameText.report_of_clean (h : r.SameText r') {b : Bool} :
    (report (b, r)).SameButPlaces (report (b, r')) :=
  ⟨rfl, h.count, h.log, h.stream.names, congrArg Draft.circuit h.draft⟩

/-- The same is missing at the end of both. -/
theorem SameText.report_complete (h : r.SameText r') :
    (report (r.complete.clean, r.complete.finish)).SameButPlaces
      (report (r'.complete.clean, r'.complete.finish)) := by
  have hlog : r.complete.log.diagnostics.map Diagnostic.unplaced =
      r'.complete.log.diagnostics.map Diagnostic.unplaced := by
    rw [diagnostics_complete_eq, diagnostics_complete_eq, List.map_append, List.map_append, h.log,
      h.draft, h.count, h.clean, show r.names = r'.names from h.stream.names]
  have hcount := DiagnosticLog.count_of_unplaced hlog
  refine ⟨?_, hcount, hlog, h.stream.names, congrArg Draft.circuit h.draft⟩
  show r.complete.clean = r'.complete.clean
  unfold Reading.clean
  rw [hcount]

/-- **Readings of the same text answer the same**, however it is laid out. -/
theorem SameText.readOn (h : r.SameText r') :
    (report r.readOn).SameButPlaces (report r'.readOn) := by
  revert r'
  fun_induction Reading.readOn r
  case case1 r hn _ =>
    intro r' h
    have hsegment := h.stream.segment? .start
    rw [hn] at hsegment
    generalize hn' : r'.stream.segment? = x at hsegment
    cases hsegment
    rw [readOn_of_none hn']
    exact h.report_complete
  case case2 r g stream hg _ hreached =>
    intro r' h
    obtain ⟨g', stream', hg', htaken⟩ := h.takeSegment hg
    rw [readOn_of_some hg', ← htaken.limitReached, if_pos hreached]
    exact htaken.report_of_clean
  case case3 r g stream hg _ hreached ih =>
    intro r' h
    obtain ⟨g', stream', hg', htaken⟩ := h.takeSegment hg
    rw [readOn_of_some hg', ← htaken.limitReached, if_neg hreached]
    exact ih htaken

/-- A source with a segment has text, behind which the end of the input is pointed at. -/
theorem shows_ofCheck (source : String) (limit : Option Nat) : (ofCheck source limit).Shows := by
  rintro ⟨l, hl, hb⟩
  rw [pending_ofCheck] at hl
  obtain ⟨c, hc, hblank⟩ := Lexeme.exists_not_blank hl hb
  have hsource : c ∈ source.toList := by
    rw [← Lexeme.flatMap_text_ofText source.toList]
    exact List.mem_flatMap.mpr ⟨l, hl, hc⟩
  have hpoint : (ofCheck source limit).log.point .endOfInput =
      (Position.start.behindText source.toList).map Position.pair :=
    DiagnosticLog.point_endOfInput rfl
  have hsome := Position.isSome_behindText .start ⟨c, hsource, hblank⟩
  rw [← Option.isSome_map, ← hpoint] at hsome
  unfold DiagnosticLog.point at hsome
  rwa [Option.isSome_map] at hsome

theorem sameText_ofCheck {source source' : String} (h : Relaid source.toList source'.toList)
    (limit : Option Nat) : (ofCheck source limit).SameText (ofCheck source' limit) where
  stream := by
    refine ⟨sound_ofCheck source limit, sound_ofCheck source' limit, ?_, ?_⟩
    · rw [pending_ofCheck, pending_ofCheck, h.map_plain_ofText]
    · exact (TokenStream.names_ofLexemes _ _).trans (TokenStream.names_ofLexemes _ _).symm
  draft := rfl
  log := rfl
  limit := rfl
  left := shows_ofCheck source limit
  right := shows_ofCheck source' limit

end Reading

/-- **A check does not depend on the layout of its source**: with each run of white space and
comments replaced by another one, it answers the same but for lines, columns and excerpts. -/
theorem check_relaid {source source' : String} (h : Relaid source.toList source'.toList)
    (limit : Option Nat) : (check source limit).SameButPlaces (check source' limit) := by
  rw [check_eq, check_eq]
  exact (Reading.sameText_ofCheck h limit).readOn

/-- A space becomes a comment, and a comment at the end becomes a line feed. -/
theorem check_relaid_clock :
    (check "DEVICE: CLOCK# 1" none).SameButPlaces (check "DEVICE:#\n CLOCK\n" none) := by
  have hlongest {w cs : List Char} (h : Lexeme.blankRun false (w ++ cs) = w) :
      Longest IsSpace w (w ++ cs) := by
    have hrun := Lexeme.longest_blankRun (w ++ cs)
    rwa [h] at hrun
  have hword {u : List Char} (h : (u.all fun c => !Text.isBlank c && c != '#') = true) :
      ∀ c ∈ u, Text.isBlank c = false ∧ c ≠ '#' := by simpa using h
  have hcomment : Relaid (['#', ' ', '1'] ++ []) (['\n'] ++ []) :=
    .run (hlongest (by decide)) (by decide) (.blank (by decide) .nil) (by decide) .nil
  have hspace : Relaid ([' '] ++ ("CLOCK".toList ++ (['#', ' ', '1'] ++ [])))
      (['#', '\n', ' '] ++ ("CLOCK".toList ++ (['\n'] ++ []))) :=
    .run (hlongest (by decide)) (by decide)
      (@IsLayout.comment [] [' '] List.not_mem_nil (.blank (by decide) .nil)) (by decide)
      (hcomment.append_left (hword rfl))
  refine check_relaid ?_ none
  exact hspace.append_left (u := "DEVICE:".toList) (hword rfl)

end Netlist
