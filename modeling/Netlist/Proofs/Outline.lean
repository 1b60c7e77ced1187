import Netlist.Proofs.Clauses
import Netlist.Proofs.Cutting
import Netlist.Proofs.Renaming

/-!
# What the segments of a definition do

Read without a fault, a source is a list of items that go from outline to outline: from a section
and a blueprint to the next. A segment is taken in without a fault just if it spells an item with
such a step.

## Results

* `Draft.Follows.of_take`: what is taken in without a fault is an item with its step.
* `Draft.Follows.take`: **an item with a step is taken in without a fault.**
-/

namespace Netlist

open Lexeme (tokensOver)

/-! ## Items on a blueprint -/

namespace Blueprint

/-- Carries out a clause. -/
def carry (B : Blueprint) : Clause → Option Blueprint
  | .declare name kind qualifier => (B.declare name kind qualifier).toOption
  | .connect w => (B.connect w).toOption
  | .monitor o => (B.monitor o).toOption

theorem toOption_eq_some_iff {ε α : Type} {r : Except ε α} {a : α} :
    r.toOption = some a ↔ r = .ok a := by
  cases r with
  | ok b => exact ⟨fun h => congrArg Except.ok (Option.some.inj h), fun h => by cases h; rfl⟩
  | error e => exact iff_of_false (fun h => by cases h) (fun h => by cases h)

/-- A statement does what its clause says. -/
theorem apply_eq_ok_iff {B B' : Blueprint} {st : Statement} :
    B.apply st = .ok B' ↔ B.carry st.clause = some B' := by
  have hmap : ∀ {ε : Type} (f : ε → Fault) (r : Except ε Blueprint),
      r.mapError f = .ok B' ↔ r.toOption = some B' := by
    intro ε f r
    cases r with
    | ok B => exact ⟨fun h => congrArg some (Except.ok.inj h), fun h => by cases h; rfl⟩
    | error e => exact iff_of_false (fun h => by cases h) (fun h => by cases h)
  cases st <;> exact hmap _ _

/-- What an item of a section adds to a blueprint. -/
def Adds (B : Blueprint) (i : Item) (B' : Blueprint) : Prop :=
  i.Readable B ∧ ∃ clause ∈ i.clause?, B.carry clause = some B'

end Blueprint

/-! ## Sections in their order -/

/-- The section that is read, and what was read so far. -/
structure Outline where
  active : Option Section
  blueprint : Blueprint

/-- An item of a definition goes on from an outline. -/
inductive Outline.Step : Outline → Item → Outline → Prop
  | title {s : Section} {B : Blueprint} : Step ⟨s.predecessors.getLast?, B⟩ (.title s) ⟨some s, B⟩
  | statement {i : Item} {k : Keyword} {B B' : Blueprint} (keyword : i.keyword? = some k)
      (added : B.Adds i B') : Step ⟨some k.homeSection, B⟩ i ⟨some k.homeSection, B'⟩

/-- The history of the sections up to one, each entered in its order. -/
def SectionHistory.upTo : Option Section → SectionHistory
  | none => .empty
  | some s => ⟨some s, s :: s.predecessors.reverse, []⟩

theorem SectionHistory.active_upTo (s : Option Section) : (upTo s).active = s := by
  cases s <;> rfl

theorem SectionHistory.enter_upTo {a : Option Section} {s : Section} :
    ((upTo a).enter s).1 = .ok () ↔ a = s.predecessors.getLast? := by
  have h : ∀ s, ((upTo none).enter s).1 = .ok () ↔ none = s.predecessors.getLast? := by
    intro s
    cases s <;> decide
  cases a with
  | none => exact h s
  | some r => cases r <;> cases s <;> decide

theorem SectionHistory.enter_upTo_predecessor (s : Section) :
    (upTo s.predecessors.getLast?).enter s = (.ok (), upTo (some s)) := by
  cases s <;> rfl

/-! ## Items as segments -/

namespace Chunk

variable {c : Chunk}

theorem Cut.dropWhile_lexemes (h : c.Cut) :
    c.lexemes.dropWhile Lexeme.isBlank = c.head :: c.tail := by
  unfold Chunk.lexemes
  rw [List.dropWhile_append_of_pos h.blank, List.dropWhile_cons_of_neg (by simp [h.head])]

/-- The head of a chunk is the first word of its item, and the tail spells the rest. -/
theorem Cut.spells_iff (h : c.Cut) {i : Item} :
    Spells i.symbols c.lexemes [] ↔ c.head = .word i.head.toList ∧ Spells i.tail c.tail [] := by
  constructor
  · intro hs
    have hdrop := h.dropWhile_lexemes
    unfold Item.symbols at hs
    generalize c.lexemes = ls at hs hdrop
    cases hs with
    | @spaced _ _ bs ms _ hb htail =>
      rw [List.dropWhile_append_of_pos hb, List.dropWhile_cons_of_neg (by simp [Lexeme.isBlank])]
        at hdrop
      obtain ⟨hhead, rfl⟩ := List.cons.inj hdrop
      exact ⟨hhead.symm, htail⟩
  · rintro ⟨hhead, htail⟩
    unfold lexemes Item.symbols
    rw [hhead]
    exact .spaced h.blank htail

theorem tail_segmentOver (hc : c.isTitle = false) (t : NameTable) (p : Position) :
    (c.segmentOver t p).tail = tokensOver t ((c.headPosition p).after c.head.text) c.tail := by
  show tailOver _ _ _ _ = _
  unfold tailOver
  rw [if_neg (by rw [show (c.head.isHeading && Lexeme.colonFollows c.tail) = false from hc]; simp)]

end Chunk

theorem colonFollows_of_spells {ls rest : List Lexeme} (h : Spells [.mark ':'] ls rest) :
    Lexeme.colonFollows ls = true := by
  cases h with
  | spaced hb h =>
    unfold Lexeme.colonFollows
    rw [List.dropWhile_append_of_pos hb]
    rfl

/-- A heading without its colon is a fault, and changes nothing. -/
theorem Draft.take_bare_heading {c : Chunk} (htitle : c.isTitle = false)
    (hhead : c.head.isHeading = true) (d : Draft) (t : NameTable) (p : Position) :
    ∃ fault, d.take (c.segmentOver t p) = (some fault, d) := by
  obtain ⟨s, w, hkind⟩ := (Lexeme.isHeading_iff (t := t)).mp hhead
  unfold Draft.take Draft.takeHeading
  rw [show (c.segmentOver t p).head.kind = .heading s w from hkind, Chunk.tail_segmentOver htitle]
  simp only
  split
  · exact ⟨_, rfl⟩
  · rename_i a hcolon
    obtain ⟨_, rest, _, rfl, hspells, -⟩ :=
      (parses_sign (k := .colon) rfl _).sound (Prod.ext hcolon rfl)
    have hfollows : Lexeme.colonFollows c.tail = true := colonFollows_of_spells hspells
    unfold Chunk.isTitle at htitle
    rw [hhead, hfollows] at htitle
    cases htitle

/-- A segment that starts with the keyword of a statement is taken in as the statement. -/
theorem Draft.take_of_keyword? {c : Chunk} {i : Item} {k : Keyword} (hkey : i.keyword? = some k)
    (hhead : c.head = .word i.head.toList) (d : Draft) (t : NameTable) (p : Position) :
    d.take (c.segmentOver t p) =
      match d.takeStatement k (c.headPosition p)
        (tokensOver t ((c.headPosition p).after c.head.text) c.tail) with
      | .ok d' => (none, d')
      | .error fault => (some fault, d) := by
  have htitle : c.isTitle = false := by
    unfold Chunk.isTitle
    rw [hhead, Item.isHeading_of_keyword? hkey, Bool.false_and]
  have hkind : (c.segmentOver t p).head.kind = .keyword k (t.word i.head) := by
    show c.head.kindOver t = _
    rw [hhead, kindOver_word, Item.head_of_keyword? hkey, Vocabulary.ofText_eq_keyword_iff.mpr rfl]
    rfl
  unfold Draft.take
  rw [hkind, Chunk.tail_segmentOver htitle]
  rfl

/-! ## Drafts that follow an outline -/

/-- A draft is where an outline is. -/
structure Draft.Follows (t : NameTable) (d : Draft) (o : Outline) : Prop where
  depicts : d.Depicts t o.blueprint
  sections : d.sections = .upTo o.active

namespace Draft.Follows

variable {t : NameTable} {d d' : Draft} {o o' : Outline} {c : Chunk} {p : Position} {i : Item}
  {k : Keyword} {B B' : Blueprint}

/-- Entering a section without a fault is a step. -/
theorem of_enter (h : d.Follows t o) {s : Section} {q : Position}
    (ht : d.enter s q = (none, d')) :
    o.Step (.title s) ⟨some s, o.blueprint⟩ ∧ d'.Follows t ⟨some s, o.blueprint⟩ := by
  obtain ⟨active, B⟩ := o
  obtain ⟨hd, hs⟩ := h
  unfold Draft.enter at ht
  rw [hs] at ht
  cases he : (SectionHistory.upTo active).enter s with
  | mk answer sections =>
    rw [show (SectionHistory.upTo (Outline.mk active B).active).enter s = _ from he] at ht
    cases answer with
    | error e => cases (Prod.mk.inj ht).1
    | ok _ =>
      obtain rfl := SectionHistory.enter_upTo.mp (congrArg Prod.fst he)
      rw [SectionHistory.enter_upTo_predecessor] at he
      obtain rfl := (Prod.mk.inj ht).2
      exact ⟨.title, ⟨hd.circuit, hd.unused⟩, (Prod.mk.inj he).2.symm⟩

/-- A statement that is taken in without a fault is an item with its step. -/
theorem of_takeStatement (h : d.Follows t o) {k : Keyword} {q q' : Position} {ls : List Lexeme}
    (hk : t.Knows ls) (ht : d.takeStatement k q (tokensOver t q' ls) = .ok d') :
    ∃ i rest o', i.keyword? = some k ∧ Spells i.tail ls rest ∧ o.Step i o' ∧ d'.Follows t o' := by
  obtain ⟨active, B⟩ := o
  obtain ⟨hd, hs⟩ := h
  unfold Draft.takeStatement at ht
  rw [hs, SectionHistory.active_upTo] at ht
  split at ht
  · rename_i hactive
    obtain rfl : active = some k.homeSection := hactive
    split at ht
    · rename_i st hread
      obtain ⟨ps, rest, p', ⟨i, hi, hkey, hclause, rfl⟩, hspells, -⟩ :=
        (hd.circuit.parses_read k).sound (Prod.ext hread rfl)
      have hover := over_of_read hk (Prod.ext hread rfl)
      have happly := hd.apply hover
      rw [ht] at happly
      cases hB : B.apply st with
      | error fault =>
        rw [show (⟨some k.homeSection, B⟩ : Outline).blueprint = B from rfl, hB] at happly
        cases happly
      | ok B' =>
        rw [show (⟨some k.homeSection, B⟩ : Outline).blueprint = B from rfl, hB] at happly
        cases happly with
        | ok hd' =>
          refine ⟨i, rest, ⟨some k.homeSection, B'⟩, hkey, hspells,
            .statement hkey ⟨hi, _, hclause, Blueprint.apply_eq_ok_iff.mp hB⟩, hd'.1,
            hd'.2.trans hs⟩
    · cases ht
  · cases ht

/-- An item with a step is a statement that is taken in without a fault. -/
theorem takeStatement (h : d.Follows t ⟨some k.homeSection, B⟩) (hkey : i.keyword? = some k)
    (hadds : B.Adds i B') {q r : Position} {ls : List Lexeme} (hk : t.Knows ls)
    (hspells : Spells i.tail ls []) :
    ∃ d', d.takeStatement k q (tokensOver t r ls) = .ok d' ∧
      d'.Follows t ⟨some k.homeSection, B'⟩ := by
  obtain ⟨hd, hs⟩ := h
  obtain ⟨hi, clause, hclause, hcarry⟩ := hadds
  obtain ⟨st, p', rfl, hread⟩ := (hd.circuit.parses_read k).complete (p := r)
    ⟨i, hi, hkey, hclause, rfl⟩ hspells
  have happly := hd.apply (over_of_read hk hread)
  rw [show (Outline.mk (some k.homeSection) B).blueprint = B from rfl,
    Blueprint.apply_eq_ok_iff.mpr hcarry] at happly
  unfold Draft.takeStatement
  rw [hs, SectionHistory.active_upTo, if_pos rfl, hread]
  show ∃ d', d.apply st = .ok d' ∧ _
  generalize d.apply st = x at happly ⊢
  cases happly with
  | ok hd' => exact ⟨_, rfl, hd'.1, hd'.2.trans hs⟩

/-- What is taken in without a fault is an item with its step. -/
theorem of_take (h : d.Follows t o) (hc : c.Cut) (hk : t.Knows c.lexemes)
    (ht : d.take (c.segmentOver t p) = (none, d')) :
    ∃ i o', Spells i.symbols c.lexemes [] ∧ o.Step i o' ∧ d'.Follows t o' := by
  cases htitle : c.isTitle with
  | true =>
    obtain ⟨s, hhead, htake⟩ := Chunk.take_title htitle
    rw [htake] at ht
    obtain ⟨hstep, hd'⟩ := h.of_enter ht
    obtain ⟨bs, hbs, htail⟩ := hc.tail_of_title htitle
    refine ⟨.title s, _, hc.spells_iff.mpr ⟨hhead, ?_⟩, hstep, hd'⟩
    rw [htail]
    exact .spaced hbs .nil
  | false =>
    by_cases hheading : c.head.isHeading = true
    · obtain ⟨fault, hfault⟩ := d.take_bare_heading htitle hheading t p
      rw [hfault] at ht
      cases ht
    unfold Draft.take at ht
    rw [Chunk.tail_segmentOver htitle] at ht
    split at ht
    · rename_i s w hkind
      exact absurd (Lexeme.isHeading_iff.mpr ⟨s, w, hkind⟩) hheading
    · rename_i k w hkind
      split at ht
      · rename_i d₁ hd₁
        cases ht
        obtain ⟨i, rest, o', hkey, hspells, hstep, hd'⟩ :=
          h.of_takeStatement (Chunk.knows_tail hk).2 hd₁
        have hhead : c.head = .word i.head.toList := by
          rw [Item.head_of_keyword? hkey]
          exact eq_word_of_kindOver_keyword hkind
        obtain ⟨ps, htail, hps⟩ := Item.exists_tail hkey
        obtain rfl : rest = [] := by
          rw [htail] at hspells
          obtain ⟨us, hus, -⟩ := hspells.exists_stop hps
          exact hc.tail_of_statement htitle hus
        exact ⟨i, o', hc.spells_iff.mpr ⟨hhead, hspells⟩, hstep, hd'⟩
      · cases (Prod.mk.inj ht).1
    · cases (Prod.mk.inj ht).1

/-- **An item with a step is taken in without a fault.** -/
theorem take (h : d.Follows t o) (hc : c.Cut) (hk : t.Knows c.lexemes)
    (hspells : Spells i.symbols c.lexemes []) (hstep : o.Step i o') :
    ∃ d', d.take (c.segmentOver t p) = (none, d') ∧ d'.Follows t o' := by
  obtain ⟨hhead, htail⟩ := hc.spells_iff.mp hspells
  cases hstep with
  | @title s B =>
    have htitle : c.isTitle = true := by
      unfold Chunk.isTitle
      rw [hhead, Item.isHeading_title, Bool.true_and]
      exact colonFollows_of_spells htail
    obtain ⟨s', hhead', htake⟩ := Chunk.take_title htitle
    obtain rfl : s = s' := by
      rw [hhead] at hhead'
      exact Vocabulary.heading_inj (String.toList_injective (Lexeme.word.inj hhead'))
    rw [htake]
    obtain ⟨hd, hs⟩ := h
    unfold Draft.enter
    rw [hs, show (Outline.mk s.predecessors.getLast? B).active = s.predecessors.getLast? from rfl,
      SectionHistory.enter_upTo_predecessor]
    exact ⟨_, rfl, ⟨hd.circuit, hd.unused⟩, rfl⟩
  | @statement _ k B B' hkey hadds =>
    obtain ⟨d', ht, hd'⟩ := h.takeStatement hkey hadds (q := c.headPosition p)
      (r := (c.headPosition p).after c.head.text) (Chunk.knows_tail hk).2 htail
    exact ⟨d', by rw [Draft.take_of_keyword? hkey hhead, ht], hd'⟩

end Draft.Follows

end Netlist
