import Netlist.Proofs.Cutting
import Netlist.Proofs.Relexing
import Netlist.Text.Position

/-!
# Blanking out a segment

Where a segment of a source is replaced by white space, line by line, the segments before it stay
and those behind it too: only the white space in front of the next one grows.

## Results

* `Chunk.not_open_of_chunks`: only the last segment runs to the end of the input.
* `Lexeme.chunks_blanked`: **a source with a segment blanked out has the other segments.**
-/

namespace Netlist

open Lexeme (ofText nextChunk? chunks splitSegment splitStop colonFollows isBlank Lexes IsSeal)

/-! ## Where a segment ends -/

namespace Chunk

variable {c : Chunk} {ls rest : List Lexeme}

theorem splitStop_snd_of_not_mem (h : .mark ';' ∉ (splitStop ls).1) : (splitStop ls).2 = [] := by
  induction ls with
  | nil => rfl
  | cons l ls ih =>
    unfold splitStop at h ⊢
    split
    · rename_i hl
      rw [if_pos hl, hl] at h
      exact absurd List.mem_cons_self h
    · rename_i hl
      rw [if_neg hl] at h
      exact ih fun hm => h (List.mem_cons_of_mem l hm)

/-- Nothing follows a segment that runs to the end of the input. -/
theorem Open.rest_eq_nil (h : nextChunk? ls = some (c, rest)) (hc : c.Open) : rest = [] := by
  unfold nextChunk? at h
  split at h
  · cases h
  · rename_i l ms _
    cases h
    obtain ⟨htitle, hhead, htail⟩ := hc
    unfold splitSegment at htitle htail ⊢
    rw [if_neg hhead] at htitle htail ⊢
    split
    · rename_i hcolon
      rw [if_pos hcolon] at htitle
      rw [isTitle_of_colonFollows ((Bool.and_eq_true _ _).mp hcolon).1 rfl] at htitle
      cases htitle
    · rename_i hcolon
      rw [if_neg hcolon] at htail
      exact splitStop_snd_of_not_mem htail

/-- Only the last segment runs to the end of the input. -/
theorem not_open_of_chunks {before after : List Chunk} (h : chunks ls = before ++ c :: after) :
    ∀ b ∈ before, ¬b.Open := by
  induction before generalizing ls with
  | nil => nofun
  | cons b before ih =>
    cases hn : nextChunk? ls with
    | none =>
      rw [Lexeme.chunks_of_none hn] at h
      cases h
    | some next =>
      obtain ⟨b', rest⟩ := next
      rw [Lexeme.chunks_of_some hn, List.cons_append] at h
      obtain ⟨rfl, hrest⟩ := List.cons.inj h
      rw [List.forall_mem_cons]
      refine ⟨fun hopen => ?_, ih hrest⟩
      rw [hopen.rest_eq_nil hn, Lexeme.chunks_of_none (by rfl)] at hrest
      simp at hrest

theorem colonFollows_append {ls ms : List Lexeme} (h : ∃ l ∈ ls, l.isBlank = false) :
    colonFollows (ls ++ ms) = colonFollows ls := by
  obtain ⟨l, hl, hb⟩ := h
  have hne : ls.dropWhile isBlank ≠ [] := fun hnil => by
    rw [List.dropWhile_eq_nil_iff.mp hnil l hl] at hb
    cases hb
  obtain ⟨d, ds, hd⟩ := List.exists_cons_of_ne_nil hne
  unfold colonFollows
  rw [List.dropWhile_append, hd]
  rfl

theorem Cut.ends_of_title (h : c.Cut) (hc : c.isTitle = true) :
    (∃ ls l, c.lexemes = ls ++ [l] ∧ l.IsSeal) ∧
      ∀ ms, splitSegment c.head (c.tail ++ ms) = (c.tail, ms) := by
  obtain ⟨bs, hbs, htail⟩ := h.tail_of_title hc
  refine ⟨⟨c.blank ++ c.head :: bs, .mark ':', by simp [lexemes, htail], .inr rfl⟩, fun ms => ?_⟩
  have hhead : c.head.isHeading = true := ((Bool.and_eq_true _ _).mp hc).1
  have hstop : c.head ≠ .mark ';' := fun he => by
    rw [he] at hhead
    cases hhead
  have hcolon : colonFollows (bs ++ .mark ':' :: ms) = true := by
    unfold colonFollows
    rw [List.dropWhile_append_of_pos hbs]
    rfl
  unfold splitSegment
  rw [if_neg hstop, htail, List.append_assoc, List.singleton_append, hhead, hcolon,
    List.dropWhile_append_of_pos hbs, List.takeWhile_append_of_pos hbs]
  simp [isBlank]

theorem Cut.ends_of_statement (h : c.Cut) (hc : c.isTitle = false) (ho : ¬c.Open) :
    (∃ ls l, c.lexemes = ls ++ [l] ∧ l.IsSeal) ∧
      ∀ ms, splitSegment c.head (c.tail ++ ms) = (c.tail, ms) := by
  by_cases hhead : c.head = .mark ';'
  · obtain ⟨ls, hls⟩ := h.tail
    unfold splitSegment at hls
    rw [if_pos hhead] at hls
    refine ⟨⟨c.blank, .mark ';', by simp [lexemes, ← hls, hhead], .inl rfl⟩, fun ms => ?_⟩
    unfold splitSegment
    rw [if_pos hhead, ← hls]
    rfl
  · have hmem : .mark ';' ∈ c.tail := by
      by_contra hm
      exact ho ⟨hc, hhead, hm⟩
    obtain ⟨us, vs, htail, hus⟩ := List.eq_append_cons_of_mem hmem
    obtain rfl := h.tail_of_statement hc htail
    refine ⟨⟨c.blank ++ c.head :: us, .mark ';', by simp [lexemes, htail], .inl rfl⟩,
      fun ms => ?_⟩
    unfold splitSegment
    rw [if_neg hhead, colonFollows_append ⟨_, hmem, rfl⟩,
      show (c.head.isHeading && colonFollows c.tail) = false from hc, if_neg Bool.false_ne_true,
      htail, List.append_assoc, List.singleton_append, splitStop_append_stop hus]

/-- How a segment ends that does not run to the end of the input. -/
theorem Cut.ends (h : c.Cut) (ho : ¬c.Open) : (∃ ls l, c.lexemes = ls ++ [l] ∧ l.IsSeal) ∧
    ∀ ms, splitSegment c.head (c.tail ++ ms) = (c.tail, ms) := by
  cases hc : c.isTitle with
  | true => exact h.ends_of_title hc
  | false => exact h.ends_of_statement hc ho

/-- A segment that does not run to the end of the input is cut alike in front of anything. -/
theorem Cut.nextChunk?_append (h : c.Cut) (hc : ¬c.Open) (ms : List Lexeme) :
    nextChunk? (c.lexemes ++ ms) = some (c, ms) := by
  have hdrop : (c.lexemes ++ ms).dropWhile isBlank = c.head :: (c.tail ++ ms) := by
    unfold lexemes
    rw [List.append_assoc, List.dropWhile_append_of_pos h.blank, List.cons_append,
      List.dropWhile_cons_of_neg (by simp [h.head])]
  have htake : (c.lexemes ++ ms).takeWhile isBlank = c.blank := by
    unfold lexemes
    rw [List.append_assoc, List.takeWhile_append_of_pos h.blank, List.cons_append,
      List.takeWhile_cons_of_neg (by simp [h.head]), List.append_nil]
  unfold nextChunk?
  rw [hdrop, htake]
  simp only [(h.ends hc).2]

end Chunk

/-! ## Segments of a text -/

namespace Lexeme

variable {c : Chunk} {before after : List Chunk} {cs : List Char} {rest : List Lexeme}

/-- A segment that does not run to the end of the input is the first one in front of any text. -/
theorem exists_text_of_nextChunk? (h : nextChunk? (ofText cs) = some (c, rest)) (hc : ¬c.Open) :
    ∃ ds, cs = c.text ++ ds ∧ rest = ofText ds ∧
      ∀ es, chunks (ofText (c.text ++ es)) = c :: chunks (ofText es) := by
  have hcut := Chunk.cut_of_nextChunk? h
  have hlexemes := lexemes_append_of_nextChunk? h
  have hlexes : Lexes c.lexemes := by
    obtain ⟨ls, l, hls, hl⟩ := (hcut.ends hc).1
    rw [hls] at hlexemes ⊢
    exact lexes_of_sealed hl hlexemes.symm
  have htext := flatMap_text_ofText cs
  rw [← hlexemes, List.flatMap_append] at htext
  refine ⟨rest.flatMap text, htext.symm, ?_, fun es => ?_⟩
  · have hrest := hlexes (rest.flatMap text)
    rw [htext, ← hlexemes] at hrest
    exact List.append_cancel_left hrest
  · rw [show c.text = c.lexemes.flatMap text from rfl, hlexes]
    exact chunks_of_some (hcut.nextChunk?_append hc _)

/-- The segments before the last are the first ones in front of any text. -/
theorem exists_text_of_chunks (h : chunks (ofText cs) = before ++ after)
    (hc : ∀ b ∈ before, ¬b.Open) : ∃ ds, cs = before.flatMap Chunk.text ++ ds ∧
      chunks (ofText ds) = after ∧
      ∀ es, chunks (ofText (before.flatMap Chunk.text ++ es)) = before ++ chunks (ofText es) := by
  induction before generalizing cs with
  | nil => exact ⟨cs, rfl, h, fun _ => rfl⟩
  | cons b before ih =>
    rw [List.forall_mem_cons] at hc
    cases hn : nextChunk? (ofText cs) with
    | none =>
      rw [chunks_of_none hn] at h
      cases h
    | some next =>
      obtain ⟨b', rest⟩ := next
      rw [chunks_of_some hn, List.cons_append] at h
      obtain ⟨rfl, hrest⟩ := List.cons.inj h
      obtain ⟨ds, rfl, rfl, hb⟩ := exists_text_of_nextChunk? hn hc.1
      obtain ⟨es, rfl, hafter, hbefore⟩ := ih hrest hc.2
      refine ⟨es, by simp, hafter, fun fs => ?_⟩
      rw [List.flatMap_cons, List.append_assoc, hb, hbefore]
      rfl

end Lexeme

/-! ## Blanking out -/

/-- What a blanked out character is replaced by: a line feed stays, and anything else becomes a
space. -/
def blanked (c : Char) : Char := if c = '\n' then '\n' else ' '

namespace Chunk

/-- The text of the segment itself. -/
def segmentText (c : Chunk) : List Char := (c.head :: c.tail).flatMap Lexeme.text

/-- The text of a chunk with its segment blanked out. -/
def blankedText (c : Chunk) : List Char :=
  c.blank.flatMap Lexeme.text ++ c.segmentText.map blanked

/-- The chunks with other white space in front of the first. -/
def reblank (bs : List Lexeme) : List Chunk → List Chunk
  | [] => []
  | c :: cs => { c with blank := bs } :: cs

end Chunk

theorem isBlank_blanked (c : Char) : Text.isBlank (blanked c) = true := by
  unfold blanked
  split <;> decide

theorem Position.next_blanked (p : Position) (c : Char) : p.next (blanked c) = p.next c := by
  unfold next blanked
  by_cases hc : c = '\n'
  · rw [if_pos hc, if_pos rfl, if_pos hc]
  · rw [if_neg hc, if_neg hc, if_neg (by decide)]

theorem Position.after_map_blanked (p : Position) (cs : List Char) :
    p.after (cs.map blanked) = p.after cs := by
  induction cs generalizing p with
  | nil => rfl
  | cons c cs ih => rw [List.map_cons, after_cons, after_cons, next_blanked, ih]

namespace Lexeme

variable {c : Chunk} {before after : List Chunk} {cs : List Char}

/-- Only the white space in front of the first chunk is not behind the white space. -/
theorem chunks_of_dropWhile_eq {ls ms : List Lexeme}
    (h : ls.dropWhile isBlank = ms.dropWhile isBlank) :
    chunks ms = Chunk.reblank (ms.takeWhile isBlank) (chunks ls) := by
  cases hd : ls.dropWhile isBlank with
  | nil =>
    have hls : nextChunk? ls = none := by
      unfold nextChunk?
      rw [hd]
    have hms : nextChunk? ms = none := by
      unfold nextChunk?
      rw [← h, hd]
    rw [chunks_of_none hls, chunks_of_none hms]
    rfl
  | cons l rest =>
    have hls : nextChunk? ls = some (⟨ls.takeWhile isBlank, l, (splitSegment l rest).1⟩,
        (splitSegment l rest).2) := by
      unfold nextChunk?
      rw [hd]
    have hms : nextChunk? ms = some (⟨ms.takeWhile isBlank, l, (splitSegment l rest).1⟩,
        (splitSegment l rest).2) := by
      unfold nextChunk?
      rw [← h, hd]
    rw [chunks_of_some hls, chunks_of_some hms]
    rfl

theorem exists_of_chunks_cons {ls : List Lexeme} (h : chunks ls = c :: after) :
    ∃ rest, nextChunk? ls = some (c, rest) ∧ chunks rest = after := by
  cases hn : nextChunk? ls with
  | none =>
    rw [chunks_of_none hn] at h
    cases h
  | some next =>
    obtain ⟨c', rest⟩ := next
    rw [chunks_of_some hn] at h
    obtain ⟨rfl, hrest⟩ := List.cons.inj h
    exact ⟨rest, rfl, hrest⟩

/-- The white space of the first chunk. -/
theorem blank_of_chunks_cons (h : chunks (ofText cs) = c :: after) :
    c.blank.flatMap text = blankRun false cs := by
  obtain ⟨rest, hn, -⟩ := exists_of_chunks_cons h
  rw [← flatMap_text_takeWhile]
  unfold nextChunk? at hn
  split at hn
  · cases hn
  · cases hn
    rfl

theorem exists_text_of_chunks_cons (h : chunks (ofText cs) = c :: after) :
    ∃ ds, cs = c.text ++ ds ∧ chunks (ofText ds) = after := by
  obtain ⟨rest, hn, hrest⟩ := exists_of_chunks_cons h
  by_cases hc : c.Open
  · obtain rfl := hc.rest_eq_nil hn
    have hlexemes := lexemes_append_of_nextChunk? hn
    refine ⟨[], ?_, ?_⟩
    · rw [← flatMap_text_ofText cs, ← hlexemes, List.append_nil, List.append_nil]
      rfl
    · rw [ofText]
      exact hrest
  · obtain ⟨ds, hds, rfl, -⟩ := exists_text_of_nextChunk? hn hc
    exact ⟨ds, hds, hrest⟩

/-- The first token of a segment shows a character that is not white space. -/
theorem exists_not_blank_of_chunks_cons (h : chunks (ofText cs) = c :: after) :
    ∃ d ∈ c.head.text, Text.isBlank d = false := by
  obtain ⟨rest, hn, -⟩ := exists_of_chunks_cons h
  have hmem : c.head ∈ ofText cs := by
    rw [← lexemes_append_of_nextChunk? hn]
    exact List.mem_append_left _ (List.mem_append_right _ List.mem_cons_self)
  exact exists_not_blank hmem (isBlank_head hn)

/-- The white space in front of a segment goes on with other white space. -/
theorem closedBlank_blank (h : chunks (ofText cs) = c :: after) :
    ClosedBlank (c.blank.flatMap text) := by
  obtain ⟨ds, hds, -⟩ := exists_text_of_chunks_cons h
  obtain ⟨d, hd, -⟩ := exists_not_blank_of_chunks_cons h
  obtain ⟨e, w, hhead⟩ := List.exists_cons_of_ne_nil (List.ne_nil_of_mem hd)
  have hrun := (blank_of_chunks_cons h).symm
  have hcs : cs = c.blank.flatMap text ++ e :: (w ++ c.tail.flatMap text ++ ds) := by
    rw [hds]
    simp [Chunk.text, Chunk.lexemes, hhead]
  rw [hcs] at hrun
  exact closedBlank_of_append hrun

/-- **A source with a segment blanked out has the other segments.** -/
theorem chunks_blanked (h : chunks (ofText cs) = before ++ c :: after) :
    ∃ ds bs, cs = before.flatMap Chunk.text ++ (c.text ++ ds) ∧ chunks (ofText ds) = after ∧
      chunks (ofText (before.flatMap Chunk.text ++ (c.blankedText ++ ds))) =
        before ++ Chunk.reblank bs after ∧
      ∀ a ∈ after.head?, bs.flatMap text = c.blankedText ++ a.blank.flatMap text := by
  obtain ⟨es, rfl, hes, hbefore⟩ := exists_text_of_chunks h (Chunk.not_open_of_chunks h)
  obtain ⟨ds, rfl, hds⟩ := exists_text_of_chunks_cons hes
  have hclosed : ClosedBlank c.blankedText := by
    refine (closedBlank_blank hes).append (closedBlank_of_forall fun d hd => ?_)
    obtain ⟨d, -, rfl⟩ := List.mem_map.mp hd
    exact isBlank_blanked d
  refine ⟨ds, (ofText (c.blankedText ++ ds)).takeWhile isBlank, rfl, hds, ?_, fun a ha => ?_⟩
  · rw [hbefore, chunks_of_dropWhile_eq (dropWhile_ofText_append hclosed ds).symm, hds]
  · obtain ⟨rest, hafter⟩ := List.head?_eq_some_iff.mp ha
    rw [flatMap_text_takeWhile, hclosed, blank_of_chunks_cons (hds.trans hafter)]

end Lexeme

end Netlist
