import Netlist.Proofs.Cutting
import Netlist.Proofs.Renaming
import Netlist.Report

/-!
# Checking as a reading

A check reads its source over a fresh table, in which only the pin words are interned, with an empty
circuit. Over the table of all names of the source, its draft depicts the empty blueprint, and the
table knows the lexemes of every segment.

## Results

* `check_eq`: a check is the reading that it starts.
* `Reading.depicts_ofCheck`, `Reading.knows_ofCheck`: where this reading starts.
-/

namespace Netlist

open Lexeme (nextChunk? chunks)

/-! ## Chunks of a source -/

/-- Every chunk is cut out of the source. -/
theorem Lexeme.cut_of_mem_chunks {ls : List Lexeme} {c : Chunk} (hc : c ∈ chunks ls) :
    c.Cut ∧ ∀ l ∈ c.lexemes, l ∈ ls := by
  fun_induction chunks ls with
  | case1 => cases hc
  | case2 ls c' rest h ih =>
    have hlexemes := lexemes_append_of_nextChunk? h
    rcases List.mem_cons.mp hc with rfl | hc
    · refine ⟨Chunk.cut_of_nextChunk? h, fun l hl => ?_⟩
      rw [← hlexemes]
      exact List.mem_append_left _ hl
    · refine ⟨(ih hc).1, fun l hl => ?_⟩
      rw [← hlexemes]
      exact List.mem_append_right _ ((ih hc).2 l hl)

/-- The names of a stream know its lexemes. -/
theorem TokenStream.knows_allNames (s : TokenStream) {ls : List Lexeme}
    (h : ∀ l ∈ ls, l ∈ s.pending) : s.allNames.Knows ls := by
  intro w hw
  obtain ⟨l, hl, hwl⟩ := List.mem_flatMap.mp hw
  exact NameTable.mem_internAll_iff.mpr (.inr (List.mem_flatMap.mpr ⟨l, h l hl, hwl⟩))

/-! ## The reading of a check -/

namespace Reading

/-- The reading that a check starts. -/
def ofCheck (source : String) (limit : Option Nat) : Reading :=
  .start source (Pins.intern .empty).2 (.empty (Pins.intern .empty).1) limit

variable (source : String) (limit : Option Nat)

theorem sound_ofCheck : (ofCheck source limit).stream.Sound := TokenStream.sound_ofLexemes _ _

theorem pending_ofCheck :
    (ofCheck source limit).stream.pending = Lexeme.ofText source.toList :=
  TokenStream.pending_ofLexemes _ _

/-- The segments of a check are those of the chunks of its source. -/
theorem segments_ofCheck : (ofCheck source limit).stream.segments =
    Chunk.segmentsOver (ofCheck source limit).stream.allNames .start
      (chunks (Lexeme.ofText source.toList)) := by
  unfold TokenStream.segments
  rw [pending_ofCheck,
    show (ofCheck source limit).stream.position = .start from TokenStream.position_ofLexemes _ _]

theorem knows_ofCheck : ∀ c ∈ chunks (Lexeme.ofText source.toList),
    c.Cut ∧ (ofCheck source limit).stream.allNames.Knows c.lexemes := by
  intro c hc
  obtain ⟨hcut, hsub⟩ := Lexeme.cut_of_mem_chunks hc
  refine ⟨hcut, TokenStream.knows_allNames _ ?_⟩
  rw [pending_ofCheck]
  exact hsub

/-- The draft of a check depicts the empty blueprint. -/
theorem depicts_ofCheck : (ofCheck source limit).draft.Depicts
    (ofCheck source limit).stream.allNames .empty := by
  have hle : (Pins.intern .empty).2 ≤ (ofCheck source limit).stream.allNames :=
    NameTable.le_trans (TokenStream.le_names_ofLexemes _ _) (TokenStream.names_le_allNames _)
  have hwords : ∀ w ∈ Pin.words, w ∈ (ofCheck source limit).stream.allNames.names :=
    fun w hw => NameTable.mem_of_le hle (Pins.words_subset_intern .empty w hw)
  have hdraft : (ofCheck source limit).draft =
      .start (.empty (.ofNames (ofCheck source limit).stream.allNames)) := by
    rw [← Pins.intern_fst hle]
    rfl
  rw [hdraft]
  exact Draft.depicts_start hwords

end Reading

/-- A check is the reading that it starts. -/
theorem check_eq (source : String) (limit : Option Nat) :
    let r := (Reading.ofCheck source limit).readOn
    check source limit = ⟨r.1, r.2.log.diagnostics, r.2.names, r.2.circuit⟩ := by
  intro r
  have hparse : (Reading.ofCheck source limit).parse = r := rfl
  unfold check
  unfold Reading.ofCheck at hparse
  generalize r = x at hparse ⊢
  generalize Pins.intern .empty = q at hparse ⊢
  simp only [hparse]

end Netlist
