import Netlist.Proofs.Grammar
import Netlist.Proofs.Segmentation

/-!
# Items and chunks

The items of a definition are what its segments are: where the lexemes of a source spell a list of
items, they are cut into one chunk for each item.

## Results

* `nextChunk?_of_spells`: what spells an item is the first chunk.
* `spells_items_iff`: **a source spells items just if its chunks spell them one by one.**
-/

namespace Netlist

open Lexeme (splitStop splitSegment nextChunk? chunks colonFollows)

/-! ## Statements end at their `;` -/

section Stop

variable {ls rest : List Lexeme} {ps : List Symbol}

theorem splitStop_append_stop (h : .mark ';' ∉ ls) :
    splitStop (ls ++ .mark ';' :: rest) = (ls ++ [.mark ';'], rest) := by
  induction ls with
  | nil => rfl
  | cons l ls ih =>
    rw [List.mem_cons, not_or] at h
    rw [List.cons_append, splitStop, if_neg (Ne.symm h.1), ih h.2]
    rfl

theorem eq_nil_of_splitStop {us vs : List Lexeme} (h : (splitStop ls).1 = us ++ .mark ';' :: vs) :
    vs = [] := by
  induction ls generalizing us with
  | nil => simp [splitStop] at h
  | cons l ls ih =>
    unfold splitStop at h
    split at h
    · cases us with
      | nil => exact (List.cons.inj h).2.symm
      | cons u us => simp at h
    · rename_i hl
      cases us with
      | nil => exact absurd (List.cons.inj h).1 hl
      | cons u us => exact ih (List.cons.inj h).2

/-- White space and symbols without a `;` spell no `;`. -/
theorem Spells.exists_stop (hps : ∀ p ∈ ps, p.lexeme ≠ .mark ';')
    (h : Spells (ps ++ [.mark ';']) ls rest) :
    ∃ us, ls = us ++ .mark ';' :: rest ∧ .mark ';' ∉ us := by
  induction ps generalizing ls with
  | nil =>
    cases h with
    | @spaced _ _ bs _ _ hb h =>
      rw [spells_nil_iff.mp h]
      exact ⟨bs, rfl, fun hm => Bool.false_ne_true (hb _ hm)⟩
  | cons p ps ih =>
    have hp := hps p List.mem_cons_self
    cases h with
    | @spaced l _ bs _ _ hb h =>
      obtain ⟨us, rfl, hus⟩ := ih (fun q hq => hps q (List.mem_cons_of_mem _ hq)) h
      refine ⟨bs ++ l :: us, by simp, fun hm => ?_⟩
      rcases List.mem_append.mp hm with hm | hm
      · exact Bool.false_ne_true (hb _ hm)
      · exact (List.mem_cons.mp hm).elim (fun he => hp he.symm) hus
    | @glued l _ _ _ h =>
      obtain ⟨us, rfl, hus⟩ := ih (fun q hq => hps q (List.mem_cons_of_mem _ hq)) h
      exact ⟨l :: us, rfl, fun hm => (List.mem_cons.mp hm).elim (fun he => hp he.symm) hus⟩

end Stop

/-! ## Items -/

namespace Item

variable {i : Item} {k : Keyword}

theorem head_of_keyword? (h : i.keyword? = some k) : i.head = k.word := by
  cases i with
  | title s => cases h
  | _ => cases h; rfl

/-- The first word of a title heads its section. -/
theorem isHeading_title (s : Section) :
    Lexeme.isHeading (.word (Item.title s).head.toList) = true := by
  rw [Lexeme.isHeading, String.ofList_toList,
    show WordClass.ofText (Item.title s).head = .heading s from
      Vocabulary.ofText_eq_heading_iff.mpr rfl]

/-- The first word of a statement heads no section. -/
theorem isHeading_of_keyword? (h : i.keyword? = some k) :
    Lexeme.isHeading (.word i.head.toList) = false := by
  rw [head_of_keyword? h, Lexeme.isHeading, String.ofList_toList,
    Vocabulary.ofText_eq_keyword_iff.mpr rfl]

/-- The symbols of a statement end with its only `;`. -/
theorem exists_tail (h : i.keyword? = some k) :
    ∃ ps, i.tail = ps ++ [.mark ';'] ∧ ∀ p ∈ ps, p.lexeme ≠ .mark ';' := by
  have hoption : ∀ {α : Type} (a? : Option α) (f : α → List Symbol),
      (∀ a, ∀ p ∈ f a, p.lexeme ≠ .mark ';') →
        ∀ p ∈ (a?.map f).getD [], p.lexeme ≠ .mark ';' := by
    intro α a? f hf p hp
    cases a? with
    | none => cases hp
    | some a => exact hf a p hp
  have hqualified : ∀ (pin : String), ∀ p ∈ Symbol.qualified pin, p.lexeme ≠ .mark ';' := by
    simp [Symbol.qualified]
  have houtput : ∀ (o : OutputName), ∀ p ∈ o.symbols, p.lexeme ≠ .mark ';' := by
    intro o p hp
    rcases List.mem_cons.mp hp with rfl | hp
    · exact Lexeme.noConfusion
    · exact hoption _ _ hqualified p hp
  cases i with
  | title s => cases h
  | device x =>
    refine ⟨.word x.name :: _, rfl, fun p hp => ?_⟩
    rcases List.mem_cons.mp hp with rfl | hp
    · exact Lexeme.noConfusion
    · exact hoption _ _ (by simp [Symbol.mark, Symbol.numeral]) p hp
  | connection w =>
    refine ⟨w.source.symbols ++ .arrow :: .word w.device :: Symbol.qualified w.pin,
      by simp [tail], fun p hp => ?_⟩
    rcases List.mem_append.mp hp with hp | hp
    · exact houtput _ p hp
    · rcases List.mem_cons.mp hp with rfl | hp
      · exact Lexeme.noConfusion
      · rcases List.mem_cons.mp hp with rfl | hp
        · exact Lexeme.noConfusion
        · exact hqualified _ p hp
  | monitor o => exact ⟨o.symbols, rfl, houtput o⟩

end Item

/-! ## Chunks -/

/-- What every chunk of a source has. -/
structure Chunk.Cut (c : Chunk) : Prop where
  blank : ∀ l ∈ c.blank, l.isBlank = true
  head : c.head.isBlank = false
  tail : ∃ ls, (splitSegment c.head ls).1 = c.tail

namespace Chunk

variable {c : Chunk}

theorem cut_of_nextChunk? {ls rest : List Lexeme} (h : nextChunk? ls = some (c, rest)) :
    c.Cut := by
  refine ⟨Lexeme.isBlank_of_mem_blank h, Lexeme.isBlank_head h, ?_⟩
  unfold nextChunk? at h
  split at h
  · cases h
  · rename_i l ms _
    cases h
    exact ⟨ms, rfl⟩

/-- A title ends at its colon. -/
theorem Cut.tail_of_title (h : c.Cut) (hc : c.isTitle = true) :
    ∃ bs, (∀ b ∈ bs, b.isBlank = true) ∧ c.tail = bs ++ [.mark ':'] := by
  obtain ⟨ls, htail⟩ := h.tail
  obtain ⟨hhead, hcolon⟩ := (Bool.and_eq_true _ _).mp hc
  unfold splitSegment at htail
  split at htail
  · rename_i hl
    rw [hl] at hhead
    cases hhead
  · split at htail
    · exact ⟨_, Lexeme.isBlank_of_mem_takeWhile ls, htail.symm⟩
    · rename_i hn
      rw [hhead, Bool.true_and, Bool.not_eq_true] at hn
      have hprefix : (splitStop ls).1 <+: ls := ⟨_, Lexeme.splitStop_append ls⟩
      rw [← htail, Lexeme.colonFollows_of_prefix hprefix hn] at hcolon
      cases hcolon

theorem isTitle_of_colonFollows {ls : List Lexeme} (hhead : c.head.isHeading = true)
    (htail : c.tail = ls.takeWhile Lexeme.isBlank ++ [.mark ':']) : c.isTitle = true := by
  unfold isTitle
  rw [hhead, htail, Lexeme.colonFollows_takeWhile]
  rfl

/-- Any other segment ends at its first `;`. -/
theorem Cut.tail_of_statement (h : c.Cut) (hc : c.isTitle = false) {us vs : List Lexeme}
    (htail : c.tail = us ++ .mark ';' :: vs) : vs = [] := by
  obtain ⟨ls, hls⟩ := h.tail
  unfold splitSegment at hls
  split at hls
  · rw [← hls] at htail
    simp at htail
  · split at hls
    · rename_i htitle
      rw [isTitle_of_colonFollows ((Bool.and_eq_true _ _).mp htitle).1 hls.symm] at hc
      cases hc
    · rw [htail] at hls
      exact eq_nil_of_splitStop hls

end Chunk

/-! ## Items in a source -/

theorem splitSegment_of_spells {i : Item} {ls rest : List Lexeme} (h : Spells i.tail ls rest) :
    (splitSegment (.word i.head.toList) ls).2 = rest := by
  unfold splitSegment
  rw [if_neg Lexeme.noConfusion]
  cases hk : i.keyword? with
  | none =>
    cases i with
    | title s =>
      cases h with
      | @spaced _ _ bs _ _ hb h =>
        rw [spells_nil_iff.mp h, Item.isHeading_title, colonFollows,
          List.dropWhile_append_of_pos hb]
        rfl
    | _ => cases hk
  | some k =>
    obtain ⟨ps, htail, hps⟩ := Item.exists_tail hk
    rw [htail] at h
    obtain ⟨us, rfl, hus⟩ := h.exists_stop hps
    rw [Item.isHeading_of_keyword? hk, Bool.false_and, if_neg Bool.false_ne_true,
      splitStop_append_stop hus]

/-- What spells an item is the first chunk. -/
theorem nextChunk?_of_spells {i : Item} {ls rest : List Lexeme} (h : Spells i.symbols ls rest) :
    ∃ c, nextChunk? ls = some (c, rest) ∧ Spells i.symbols c.lexemes [] := by
  suffices hc : ∃ c, nextChunk? ls = some (c, rest) by
    obtain ⟨c, hc⟩ := hc
    obtain ⟨us, hus, hframe⟩ := h.frame
    have hlexemes : c.lexemes = us :=
      List.append_cancel_right ((Lexeme.lexemes_append_of_nextChunk? hc).trans hus)
    refine ⟨c, hc, ?_⟩
    rw [hlexemes, ← List.append_nil us]
    exact hframe []
  cases h with
  | @spaced _ _ bs ms _ hb h =>
    have hdrop : (bs ++ .word i.head.toList :: ms).dropWhile Lexeme.isBlank =
        .word i.head.toList :: ms := List.dropWhile_append_of_pos hb
    have hsplit := splitSegment_of_spells h
    unfold nextChunk?
    rw [hdrop]
    exact ⟨_, by rw [← hsplit]⟩

/-- **A source spells items just if its chunks spell them one by one.** -/
theorem spells_items_iff {items : List Item} {ls : List Lexeme} :
    (∃ rest, Spells (items.flatMap Item.symbols) ls rest ∧ ∀ l ∈ rest, l.isBlank = true) ↔
      List.Forall₂ (fun i c => Spells i.symbols c.lexemes []) items (chunks ls) := by
  constructor
  · rintro ⟨rest, h, hrest⟩
    induction items generalizing ls with
    | nil =>
      rw [spells_nil_iff.mp h] at hrest
      rw [Lexeme.chunks_of_none (Lexeme.nextChunk?_eq_none_iff.mpr hrest)]
      exact .nil
    | cons i items ih =>
      obtain ⟨ms, hi, hitems⟩ := spells_append_iff.mp h
      obtain ⟨c, hc, hspells⟩ := nextChunk?_of_spells hi
      rw [Lexeme.chunks_of_some hc]
      exact .cons hspells (ih hitems)
  · intro h
    induction items generalizing ls with
    | nil =>
      cases hc : nextChunk? ls with
      | none => exact ⟨ls, .nil, Lexeme.nextChunk?_eq_none_iff.mp hc⟩
      | some next =>
        rw [Lexeme.chunks_of_some hc] at h
        cases h
    | cons i items ih =>
      cases hc : nextChunk? ls with
      | none =>
        rw [Lexeme.chunks_of_none hc] at h
        cases h
      | some next =>
        obtain ⟨c, ms⟩ := next
        rw [Lexeme.chunks_of_some hc] at h
        cases h with
        | cons hi hitems =>
          obtain ⟨rest, hspells, hrest⟩ := ih hitems
          refine ⟨rest, ?_, hrest⟩
          obtain ⟨us, hus, hframe⟩ := hi.frame
          rw [← Lexeme.lexemes_append_of_nextChunk? hc, hus, List.append_nil]
          exact (hframe ms).append hspells

end Netlist
