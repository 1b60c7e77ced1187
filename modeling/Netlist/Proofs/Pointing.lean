import Netlist.Proofs.Blanking
import Netlist.Proofs.Excerpts
import Netlist.Proofs.Interleaving
import Netlist.Proofs.Outline
import Netlist.Proofs.Passage
import Netlist.Proofs.Placement
import Netlist.Proofs.Recovery

/-!
# Where faults point

A fault of a segment points at one of its tokens, or at the end of the input if the segment runs to
it. So it points into the text of the segment, and not into what was read before or comes behind.

## Results

* `Draft.place_take`: a fault points at a token of its segment, or at the end of the input.
* `Draft.open_of_endOfInput`: only a segment that runs to the end of the input has a fault there.
* `Reading.Reads.exists_excerpt`: **where the fault of a segment points.**
-/

namespace Netlist

open Lexeme (ofText nextChunk? tokensOver)

/-! ## The order of positions -/

namespace Position

variable {p q r : Position} {cs : List Char}

/-- The order of positions: by line, and within a line by column. -/
def Before (p q : Position) : Prop := p.line < q.line ∨ p.line = q.line ∧ p.column < q.column

theorem Before.trans (h : p.Before q) (h' : q.Before r) : p.Before r := by
  unfold Before at h h' ⊢
  omega

theorem Before.asymm (h : p.Before q) : ¬q.Before p := by
  unfold Before at h ⊢
  omega

theorem Before.of_not_before (h : p.Before q) (h' : ¬r.Before q) : p.Before r := by
  unfold Before at h h' ⊢
  omega

theorem before_next (p : Position) (c : Char) : p.Before (p.next c) := by
  unfold next
  split
  · exact .inl (Nat.lt_succ_self _)
  · exact .inr ⟨rfl, Nat.lt_succ_self _⟩

theorem before_after (p : Position) (h : cs ≠ []) : p.Before (p.after cs) := by
  induction cs generalizing p with
  | nil => exact absurd rfl h
  | cons c cs ih =>
    by_cases hcs : cs = []
    · rw [hcs]
      exact p.before_next c
    · exact (p.before_next c).trans (ih (p.next c) hcs)

theorem not_before_after (p : Position) (cs : List Char) : ¬(p.after cs).Before p := by
  by_cases hcs : cs = []
  · rw [hcs, after_nil]
    unfold Before
    omega
  · exact (p.before_after hcs).asymm

theorem before_of_behindText (h : p.behindText cs = some q) : p.Before q := by
  induction cs generalizing p with
  | nil => cases h
  | cons c cs ih =>
    rw [behindText] at h
    rcases Option.or_eq_some_iff.mp h with h | ⟨-, h⟩
    · exact (p.before_next c).trans (ih h)
    · split at h
      · cases h
      · cases h
        exact p.before_next c

end Position

/-! ## The tokens of a segment -/

namespace Lexeme

variable {t : NameTable} {p : Position} {ls : List Lexeme}

theorem exists_of_mem_tokensOver {k : Token} (hk : k ∈ tokensOver t p ls) :
    ∃ as l bs, ls = as ++ l :: bs ∧ k = ⟨l.kindOver t, p.after (as.flatMap text)⟩ := by
  induction ls generalizing p with
  | nil => cases hk
  | cons l ls ih =>
    rcases List.mem_cons.mp hk with rfl | hk
    · exact ⟨[], l, ls, rfl, rfl⟩
    · obtain ⟨as, m, bs, rfl, rfl⟩ := ih hk
      refine ⟨l :: as, m, bs, rfl, ?_⟩
      rw [List.flatMap_cons, Position.after_append]

theorem exists_mem_tokensOver {l : Lexeme} (hl : l ∈ ls) :
    ∃ k ∈ tokensOver t p ls, k.kind = l.kindOver t := by
  obtain ⟨as, bs, rfl⟩ := List.append_of_mem hl
  rw [tokensOver_append]
  exact ⟨_, List.mem_append_right _ List.mem_cons_self, rfl⟩

end Lexeme

/-- The tokens of a segment are tokens of its lexemes. -/
theorem Chunk.mem_segmentOver {t : NameTable} {p : Position} {c : Chunk} {k : Token}
    (hk : k ∈ (c.segmentOver t p).head :: (c.segmentOver t p).tail) :
    k ∈ tokensOver t (c.headPosition p) (c.head :: c.tail) := by
  rw [Lexeme.tokensOver_cons]
  rcases List.mem_cons.mp hk with rfl | hk
  · exact List.mem_cons_self
  · refine List.mem_cons_of_mem _ ?_
    unfold segmentOver tailOver at hk
    simp only at hk
    split at hk
    · exact (List.dropWhile_sublist _).mem hk
    · exact hk

/-! ## Faults at tokens -/

namespace Draft

variable {d : Draft} {g : Segment} {fault : Fault}

/-- **A fault points at a token of its segment**, or at the end of the input. -/
theorem place_take (h : (d.take g).1 = some fault) :
    fault.place = .endOfInput ∨ ∃ k ∈ g.head :: g.tail, fault.place = .token k.position := by
  cases hplace : fault.place with
  | endOfInput => exact .inl rfl
  | token q =>
    refine .inr (by_contra fun hno => ?_)
    -- Moving nothing but `q` leaves the segment as it is, and would move its fault.
    let f : Position → Position := fun p => if p = q then p.next ' ' else p
    have hf : ∀ k ∈ g.head :: g.tail, k.move f = k := fun k hk => by
      have hne : k.position ≠ q := fun he => hno ⟨k, hk, by rw [he]⟩
      show ({ k with position := if k.position = q then k.position.next ' ' else k.position } :
        Token) = k
      rw [if_neg hne]
    obtain ⟨hhead, htail⟩ := List.forall_mem_cons.mp hf
    have hg : g.move f = g := by
      unfold Segment.move
      rw [hhead, List.map_congr_left htail, List.map_id']
    have hmove := congrArg Prod.fst (d.take_move (f := f) g)
    rw [hg, h] at hmove
    have hq := congrArg Fault.place (Option.some.inj hmove)
    rw [Fault.move, hplace] at hq
    have hfq : q = if q = q then q.next ' ' else q := Place.token.inj hq
    rw [if_pos rfl] at hfq
    have hbefore := q.before_next ' '
    rw [← hfq] at hbefore
    unfold Position.Before at hbefore
    omega

end Draft

/-! ## Faults at the end of the input -/

namespace Lockstep

variable {ends : Prop} {ts : List Token}

theorem nextAlike_self (h : (∀ k ∈ ts, k.kind ≠ .semicolon) → ends) :
    NextAlike Eq (fun us us' : List Token => us = us' ∧ ((∀ k ∈ us, k.kind ≠ .semicolon) → ends))
      (fun _ _ => True) ends (ts.head?, ts.tail) (ts.head?, ts.tail) := by
  cases ts with
  | nil => exact .none (h nofun) trivial
  | cons k ts =>
    obtain ⟨kind, position⟩ := k
    by_cases hk : kind = .semicolon
    · subst hk
      exact .stop trivial
    · exact .token ⟨TokenKind.Like.refl _, rfl⟩ hk
        ⟨rfl, fun hts => h (List.forall_mem_cons.mpr ⟨hk, hts⟩)⟩

/-- White space in front has no `;` in it. -/
theorem no_semicolon_of_dropWhile
    (h : ∀ k ∈ ts.dropWhile (·.kind = .space), k.kind ≠ .semicolon) :
    ∀ k ∈ ts, k.kind ≠ .semicolon := by
  intro k hk
  rw [← List.takeWhile_append_dropWhile (p := (·.kind = .space)) (l := ts)] at hk
  rcases List.mem_append.mp hk with hk | hk
  · have hspace := List.mem_takeWhile_imp hk
    rw [decide_eq_true_eq] at hspace
    rw [hspace]
    exact TokenKind.noConfusion
  · exact h k hk

/-- Tokens beside themselves. They run out only if there is no `;` in them. -/
def self (ends : Prop) : Lockstep Eq (List Token) (List Token) where
  inside ts ts' := ts = ts' ∧ ((∀ k ∈ ts, k.kind ≠ .semicolon) → ends)
  done _ _ := True
  ends := ends
  text_eq h := congrArg Word.text h
  next := by
    rintro ts _ ⟨rfl, h⟩
    exact nextAlike_self fun hts => h (no_semicolon_of_dropWhile hts)
  nextRaw := by
    rintro ts _ ⟨rfl, h⟩
    exact nextAlike_self h

theorem Agree.ends_of_place {W : Word → Word → Prop} {σ σ' α α' : Type} [TokenSource σ]
    [TokenSource σ'] {L : Lockstep W σ σ'} {A : α → α' → Prop} {P : σ → σ' → Prop}
    {r : Except Fault α × σ} {r' : Except Fault α' × σ'} (h : L.Agree A P r r') {fault : Fault}
    (hr : r.1 = .error fault) (hplace : fault.place = .endOfInput) : L.ends := by
  cases h with
  | ok => cases hr
  | error _ hp =>
    cases hr
    exact hp hplace

end Lockstep

namespace Draft

variable {d : Draft} {g : Segment} {fault : Fault}

theorem place_enter {s : Section} {q : Position} (h : (d.enter s q).1 = some fault) :
    fault.place = .token q := by
  unfold enter at h
  generalize d.sections.enter s = e at h
  obtain ⟨answer, sections⟩ := e
  cases answer with
  | ok => cases h
  | error e => cases h; rfl

/-- A segment with a `;` has no fault at the end of the input. -/
theorem no_semicolon_of_endOfInput (h : (d.take g).1 = some fault)
    (hplace : fault.place = .endOfInput) :
    g.head.kind ≠ .semicolon ∧ ∀ k ∈ g.tail, k.kind ≠ .semicolon := by
  have hinside : (Lockstep.self (∀ k ∈ g.tail, k.kind ≠ .semicolon)).inside g.tail g.tail :=
    ⟨rfl, id⟩
  unfold take at h
  split at h
  · rename_i s w hk
    refine ⟨by rw [hk]; exact TokenKind.noConfusion, ?_⟩
    unfold takeHeading at h
    split at h
    · rename_i fault' hr
      cases h
      exact (Lockstep.agree_expect (Lockstep.fitAlike_only (k := .colon) rfl)
        hinside).ends_of_place hr hplace
    · rw [place_enter h] at hplace
      cases hplace
  · rename_i k w hk
    refine ⟨by rw [hk]; exact TokenKind.noConfusion, ?_⟩
    have hread := Lockstep.agree_read (Circuit.ReadAlike.refl d.circuit) k hinside
    split at h
    · cases h
    · rename_i fault' ht
      cases h
      unfold takeStatement at ht
      split at ht
      · split at ht
        · exact absurd hplace (place_of_apply ht)
        · rename_i hr
          cases ht
          exact hread.ends_of_place hr hplace
      · cases ht
        cases hplace
  · cases h
    cases hplace

/-- **Only a segment that runs to the end of the input has a fault there.** -/
theorem open_of_endOfInput {c : Chunk} {t : NameTable} {p : Position}
    (h : (d.take (c.segmentOver t p)).1 = some fault) (hplace : fault.place = .endOfInput) :
    c.Open := by
  have htitle : c.isTitle = false := by
    rw [Bool.eq_false_iff]
    intro hc
    obtain ⟨s, -, htake⟩ := Chunk.take_title hc
    rw [htake] at h
    rw [place_enter h] at hplace
    cases hplace
  obtain ⟨hhead, htail⟩ := no_semicolon_of_endOfInput h hplace
  refine ⟨htitle, fun hc => hhead ?_, fun hc => ?_⟩
  · exact Lexeme.kindOver_eq_semicolon_iff.mpr hc
  · rw [Chunk.tail_segmentOver htitle] at htail
    obtain ⟨k, hk, hkind⟩ := Lexeme.exists_mem_tokensOver hc
    exact htail k hk hkind

end Draft

/-! ## Places in a source -/

/-- What a message about a source can point at: a lexeme, or the end of a source that shows text.
White space that is pointed at does not start the source. -/
inductive Place.Marks (source : List Char) : Place → Prop
  | token {as bs : List Lexeme} {l : Lexeme} (lexemes : ofText source = as ++ l :: bs)
      (front : l.isBlank = true → as ≠ []) :
      Marks source (.token (.ofPrefix (as.flatMap Lexeme.text)))
  | endOfInput (shows : ∃ c ∈ source, Text.isBlank c = false) : Marks source .endOfInput

/-- The line and the column of an excerpt. -/
def Excerpt.position (e : Excerpt) : Position := ⟨e.line, e.column⟩

/-- The position that a message about a place of a source points at: that of a token, or for the end
of the input the one behind the last character that is not white space. -/
def Place.position? (source : List Char) : Place → Option Position
  | .token p => some p
  | .endOfInput => Position.start.behindText source

theorem DiagnosticLog.position_excerpt {log : DiagnosticLog} {source : String}
    (h : log.lines = (ofSource source).lines) (place : Place) :
    (log.excerpt place).map Excerpt.position = place.position? source.toList := by
  cases place with
  | token p => rfl
  | endOfInput =>
    have hpair : Function.Injective Position.pair := fun p q he => by
      obtain ⟨line, column⟩ := p
      obtain ⟨line', column'⟩ := q
      cases he
      rfl
    have hpoint := point_endOfInput h
    refine Option.map_injective hpair ?_
    rw [Option.map_map]
    exact hpoint

theorem Lexeme.text_ne_nil_of_mem {cs : List Char} {l : Lexeme} (hl : l ∈ ofText cs) :
    l.text ≠ [] := by
  fun_induction ofText cs with
  | case1 => cases hl
  | case2 c cs ih =>
    rcases List.mem_cons.mp hl with rfl | hl
    · exact text_first_ne_nil c cs
    · exact ih hl

namespace Reading

variable {source : String} {r last : Reading} {g : Segment} {gs : List Segment}
  {stream : TokenStream} {fault : Fault}

/-- A reading in the middle of a source. -/
structure Reads (source : String) (r : Reading) : Prop where
  sound : r.stream.Sound
  left : ∃ ls, ofText source.toList = ls ++ r.stream.pending ∧
    r.stream.position = .ofPrefix (ls.flatMap Lexeme.text)
  lines : r.log.lines = (DiagnosticLog.ofSource source).lines

theorem reads_start (source : String) (names : NameTable) (c : Circuit) (limit : Option Nat) :
    (start source names c limit).Reads source where
  sound := TokenStream.sound_ofLexemes _ _
  left := ⟨[], (TokenStream.pending_ofLexemes _ names).symm, TokenStream.position_ofLexemes _ _⟩
  lines := rfl

theorem lines_takeSegment (r : Reading) (g : Segment) (stream : TokenStream) :
    (r.takeSegment g stream).log.lines = r.log.lines := by
  rw [log_takeSegment]
  cases (r.draft.take g).1 <;> rfl

theorem Reads.takeSegment (h : r.Reads source) (hg : r.stream.segment? = some (g, stream)) :
    (r.takeSegment g stream).Reads source where
  sound := (TokenStream.behind_of_segment? h.sound hg).1
  left := by
    rw [TokenStream.segment?_eq h.sound NameTable.le_rfl] at hg
    obtain ⟨⟨c, rest⟩, hc, he⟩ := Option.map_eq_some_iff.mp hg
    obtain ⟨rfl, rfl⟩ := Prod.mk.inj he
    obtain ⟨ls, hls, hposition⟩ := h.left
    refine ⟨ls ++ c.lexemes, ?_, ?_⟩
    · rw [hls, ← Lexeme.lexemes_append_of_nextChunk? hc, List.append_assoc]
      rfl
    · show r.stream.position.after (c.lexemes.flatMap Lexeme.text) = _
      rw [hposition, ← Position.after_start, ← Position.after_append, Position.after_start,
        List.flatMap_append]
  lines := (r.lines_takeSegment g stream).trans h.lines

theorem Reads.passes (h : r.Reads source) (hlast : r.Passes gs last) : last.Reads source := by
  induction hlast with
  | refl => exact h
  | segment next _ _ ih => exact ih (h.takeSegment next)

/-- A segment takes room. -/
theorem Reads.before_behind (h : r.Reads source) (hg : r.stream.segment? = some (g, stream)) :
    r.stream.position.Before stream.position := by
  rw [TokenStream.segment?_eq h.sound NameTable.le_rfl] at hg
  obtain ⟨⟨c, rest⟩, hc, he⟩ := Option.map_eq_some_iff.mp hg
  obtain ⟨rfl, rfl⟩ := Prod.mk.inj he
  obtain ⟨ls, hls, -⟩ := h.left
  have hhead : c.head ∈ c.lexemes := List.mem_append_right _ List.mem_cons_self
  have hmem : c.head ∈ ofText source.toList := by
    rw [hls, ← Lexeme.lexemes_append_of_nextChunk? hc]
    exact List.mem_append_right _ (List.mem_append_left _ hhead)
  refine r.stream.position.before_after fun hnil => ?_
  exact Lexeme.text_ne_nil_of_mem hmem (List.flatMap_eq_nil_iff.mp hnil _ hhead)

/-- In front of text that is left, a message about the end of the input points behind it. -/
theorem Reads.exists_endExcerpt (h : r.Reads source)
    (hshows : ∃ c ∈ r.stream.pending.flatMap Lexeme.text, Text.isBlank c = false) :
    Place.endOfInput.Marks source.toList ∧ ∃ e, r.log.excerpt .endOfInput = some e ∧
      r.stream.position.Before e.position := by
  obtain ⟨ls, hls, hposition⟩ := h.left
  have hsource : source.toList =
      ls.flatMap Lexeme.text ++ r.stream.pending.flatMap Lexeme.text := by
    rw [← List.flatMap_append, ← hls, Lexeme.flatMap_text_ofText]
  obtain ⟨q, hq⟩ := Option.isSome_iff_exists.mp
    (Position.isSome_behindText r.stream.position hshows)
  have hend : Place.endOfInput.position? source.toList = some q := by
    unfold Place.position?
    rw [hsource, Position.behindText_append, Position.after_start, ← hposition, hq]
    rfl
  obtain ⟨e, he, heq⟩ := Option.map_eq_some_iff.mp
    ((DiagnosticLog.position_excerpt h.lines .endOfInput).trans hend)
  obtain ⟨c, hc, hblank⟩ := hshows
  refine ⟨.endOfInput ⟨c, ?_, hblank⟩, e, he, ?_⟩
  · rw [hsource]
    exact List.mem_append_right _ hc
  · rw [heq]
    exact Position.before_of_behindText hq

/-- A lexeme that is left can be pointed at. -/
theorem Reads.marks_token (h : r.Reads source) {as bs : List Lexeme} {l : Lexeme}
    (hp : r.stream.pending = as ++ l :: bs) (hfront : l.isBlank = true → as ≠ []) :
    Place.Marks source.toList (.token (r.stream.position.after (as.flatMap Lexeme.text))) := by
  obtain ⟨ls, hls, hposition⟩ := h.left
  rw [hposition, ← Position.after_start, ← Position.after_append, Position.after_start,
    ← List.flatMap_append]
  have hlexemes : ofText source.toList = (ls ++ as) ++ l :: bs := by
    rw [hls, hp, List.append_assoc]
  exact .token hlexemes fun hl hnil => hfront hl (List.append_eq_nil_iff.mp hnil).2

/-- A token of the next segment can be pointed at, and stands in the text of the segment. -/
theorem Reads.marks_of_mem (h : r.Reads source) {c : Chunk} {rest : List Lexeme}
    (hc : nextChunk? r.stream.pending = some (c, rest)) {t : NameTable} {k : Token}
    (hk : k ∈ (c.segmentOver t r.stream.position).head ::
      (c.segmentOver t r.stream.position).tail) :
    Place.Marks source.toList (.token k.position) ∧ ¬k.position.Before r.stream.position ∧
      k.position.Before (r.stream.position.after (c.lexemes.flatMap Lexeme.text)) := by
  have hpending := Lexeme.lexemes_append_of_nextChunk? hc
  obtain ⟨as, l, bs, hlexemes, rfl⟩ := Lexeme.exists_of_mem_tokensOver (Chunk.mem_segmentOver hk)
  have hcut : c.lexemes = (c.blank ++ as) ++ l :: bs := by
    rw [Chunk.lexemes, hlexemes, List.append_assoc]
  have hp : r.stream.pending = (c.blank ++ as) ++ l :: (bs ++ rest) := by
    rw [← hpending, hcut, List.append_assoc (c.blank ++ as), List.cons_append]
  have hposition : (c.headPosition r.stream.position).after (as.flatMap Lexeme.text) =
      r.stream.position.after ((c.blank ++ as).flatMap Lexeme.text) := by
    rw [List.flatMap_append, Position.after_append]
    rfl
  rw [hposition]
  refine ⟨h.marks_token hp fun hl hnil => ?_, Position.not_before_after _ _, ?_⟩
  · -- The first lexeme of a segment is no white space.
    obtain ⟨-, rfl⟩ := List.append_eq_nil_iff.mp hnil
    have hhead := Lexeme.isBlank_head hc
    rw [(List.cons.inj hlexemes).1, hl] at hhead
    cases hhead
  · have hl : l.text ≠ [] := by
      obtain ⟨ls, hls, -⟩ := h.left
      refine Lexeme.text_ne_nil_of_mem (show l ∈ ofText source.toList from ?_)
      rw [hls, hp]
      simp
    have htext : c.lexemes.flatMap Lexeme.text =
        (c.blank ++ as).flatMap Lexeme.text ++ (l.text ++ bs.flatMap Lexeme.text) := by
      rw [hcut, List.flatMap_append, List.flatMap_cons]
    rw [htext, Position.after_append]
    exact Position.before_after _ (List.append_ne_nil_of_left_ne_nil hl _)

/-- There is text in front of the end of a segment. -/
theorem Reads.exists_text (h : r.Reads source) {c : Chunk} {rest : List Lexeme}
    (hc : nextChunk? r.stream.pending = some (c, rest)) :
    ∃ d ∈ r.stream.pending.flatMap Lexeme.text, Text.isBlank d = false := by
  have hhead : c.head ∈ r.stream.pending := by
    rw [← Lexeme.lexemes_append_of_nextChunk? hc]
    exact List.mem_append_left _ (List.mem_append_right _ List.mem_cons_self)
  obtain ⟨ls, hls, -⟩ := h.left
  obtain ⟨d, hd, hblank⟩ := Lexeme.exists_not_blank
    (show c.head ∈ ofText source.toList by rw [hls]; exact List.mem_append_right _ hhead)
    (Lexeme.isBlank_head hc)
  exact ⟨d, List.mem_flatMap.mpr ⟨_, hhead, hd⟩, hblank⟩

/-- **Where the fault of a segment points**: at a place of the source that is not before the segment
and is before what comes behind it, if anything does. -/
theorem Reads.exists_excerpt (h : r.Reads source) (hg : r.stream.segment? = some (g, stream))
    (hfault : (r.draft.take g).1 = some fault) :
    fault.place.Marks source.toList ∧ ∃ e, r.log.excerpt fault.place = some e ∧
      ¬e.position.Before r.stream.position ∧
      (stream.segment? = none ∨ e.position.Before stream.position) := by
  have hsound := (TokenStream.behind_of_segment? h.sound hg).1
  rw [TokenStream.segment?_eq h.sound NameTable.le_rfl] at hg
  obtain ⟨⟨c, rest⟩, hc, he⟩ := Option.map_eq_some_iff.mp hg
  obtain ⟨rfl, rfl⟩ := Prod.mk.inj he
  rcases Draft.place_take hfault with hplace | ⟨k, hk, hplace⟩
  · rw [hplace]
    obtain ⟨hmarks, e, he, hbefore⟩ := h.exists_endExcerpt (h.exists_text hc)
    refine ⟨hmarks, e, he, hbefore.asymm, .inl ?_⟩
    obtain rfl := (Draft.open_of_endOfInput hfault hplace).rest_eq_nil hc
    exact (TokenStream.segment?_eq_none_iff hsound).mpr rfl
  · rw [hplace]
    obtain ⟨hmarks, hfrom, hto⟩ := h.marks_of_mem hc hk
    exact ⟨hmarks, _, rfl, hfrom, .inr hto⟩

end Reading

end Netlist
