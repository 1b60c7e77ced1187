import Netlist.Proofs.Interleaving
import Netlist.Proofs.Renaming

/-!
# Reserved words over any table

The reserved words get the identifiers that are free when they are interned, or the ones they had
before as ordinary words. Which word is reserved, and for what, does not depend on that: over every
table that grows out of the one where a vocabulary was built, a word has its class by its text
alone. So a source is scanned alike over any two tables.

## Results

* `Vocabulary.classifies_of_le`: what a vocabulary says of identifiers over any later table.
* `TokenStream.Abreast.askAll`: streams that differ in their tables answer alike.
* `Vocabulary.classifies_anywhere`: **a word is reserved by its text, whatever was interned.**
-/

namespace Netlist

open NameTable (le_rfl le_trans le_internAll)

/-! ## Classes of identifiers -/

namespace Vocabulary

/-- Whether an identifier is that of a reserved word of a class. -/
def ReservedAs (t : NameTable) (id : NameId) (c : WordClass) : Prop :=
  ∃ w ∈ words, id = t.idOf w ∧ .ofText w = c

section Reserved

variable {t : NameTable} {id : NameId} {c c' : WordClass} {w : String}

/-- **No identifier falls in two classes.** -/
theorem ReservedAs.unique (h : ReservedAs t id c) (hwords : ∀ w ∈ words, w ∈ t.names)
    (h' : ReservedAs t id c') : c = c' := by
  obtain ⟨w, hw, rfl, rfl⟩ := h
  obtain ⟨v, -, he, rfl⟩ := h'
  rw [(NameTable.idOf_inj (hwords w hw)).mp he]

/-- An identifier is that of a reserved word just if the word is reserved. -/
theorem reservedAs_idOf_iff (hwords : ∀ w ∈ words, w ∈ t.names) (hc : c ≠ .name) :
    ReservedAs t (t.idOf w) c ↔ .ofText w = c := by
  constructor
  · rintro ⟨v, hv, he, rfl⟩
    rw [(NameTable.idOf_inj (hwords v hv)).mp he.symm]
  · rintro rfl
    exact ⟨w, not_not.mp fun hw => hc (ofText_eq_name_iff.mpr hw), rfl, rfl⟩

/-- The identifiers of reserved words are known when the reserved words are. -/
theorem ReservedAs.text?_ne_none {built : NameTable} (h : ReservedAs t id c)
    (hle : built ≤ t) (hbuilt : ∀ w ∈ words, w ∈ built.names) : built.text? id ≠ none := by
  obtain ⟨w, hw, rfl, -⟩ := h
  rw [NameTable.idOf_of_le hle (hbuilt w hw), NameTable.text?_idOf (hbuilt w hw)]
  exact Option.some_ne_none w

/-- A look-up finds the one entry whose word has the identifier. -/
theorem lookup_eq_some_iff {α : Type} (word : α → String) {as : List α} {a : α}
    (h : ∀ a ∈ as, word a ∈ t.names)
    (hinj : ∀ a ∈ as, (as.find? fun b => word b = word a) = some a) :
    (as.map fun a => (t.idOf (word a), a)).lookup id = some a ↔
      a ∈ as ∧ id = t.idOf (word a) := by
  constructor
  · intro hlookup
    obtain ⟨before, after, hsplit, -⟩ := List.lookup_eq_some_iff.mp hlookup
    have hmem : (id, a) ∈ as.map fun a => (t.idOf (word a), a) := by
      rw [hsplit]
      exact List.mem_append_right _ List.mem_cons_self
    obtain ⟨b, hb, he⟩ := List.mem_map.mp hmem
    cases he
    exact ⟨hb, rfl⟩
  · rintro ⟨ha, rfl⟩
    rw [lookup_idOf word h, hinj a ha]

theorem section?_eq_some_iff (h : ∀ w ∈ words, w ∈ t.names) {s : Section} :
    (ofNames t).section? id = some s ↔ ReservedAs t id (.heading s) := by
  unfold section? ofNames ReservedAs
  rw [lookup_eq_some_iff Section.heading (fun s _ => h _ (mem_words_of_heading s)) (by decide),
    and_iff_right s.mem_all]
  simp only [ofText_eq_heading_iff]
  exact ⟨fun hid => ⟨_, mem_words_of_heading s, hid, rfl⟩, fun ⟨w, _, hid, hw⟩ => hw ▸ hid⟩

theorem keyword?_eq_some_iff (h : ∀ w ∈ words, w ∈ t.names) {k : Keyword} :
    (ofNames t).keyword? id = some k ↔ ReservedAs t id (.keyword k) := by
  unfold keyword? ofNames ReservedAs
  rw [lookup_eq_some_iff Keyword.word (fun k _ => h _ (mem_words_of_keyword k)) (by decide),
    and_iff_right k.mem_all]
  simp only [ofText_eq_keyword_iff]
  exact ⟨fun hid => ⟨_, mem_words_of_keyword k, hid, rfl⟩, fun ⟨w, _, hid, hw⟩ => hw ▸ hid⟩

theorem isPin_iff : (ofNames t).isPin id = true ↔ ReservedAs t id .pin := by
  unfold isPin ofNames ReservedAs
  rw [List.contains_iff_mem, List.mem_map]
  simp only [ofText_eq_pin_iff, mem_pinWords_iff]
  exact ⟨fun ⟨w, hw, hid⟩ => ⟨w, mem_words_of_pin hw, hid.symm, hw⟩,
    fun ⟨w, _, hid, hw⟩ => ⟨w, hw, hid.symm⟩⟩

/-- The identifiers that devices have for pins. -/
theorem mem_pins_iff : id ∈ (Pins.ofNames t).numbered ++ (Pins.ofNames t).dtypeInputs ++
    (Pins.ofNames t).dtypeOutputs ↔ ReservedAs t id .pin := by
  unfold Pins.ofNames ReservedAs
  rw [← List.map_append, ← List.map_append, List.mem_map]
  simp only [ofText_eq_pin_iff]
  exact ⟨fun ⟨w, hw, hid⟩ => ⟨w, mem_words_of_pin hw, hid.symm, hw⟩,
    fun ⟨w, _, hid, hw⟩ => ⟨w, hw, hid.symm⟩⟩

end Reserved

/-- What a vocabulary says of identifiers when the table where it was `built` has become `t`. The
`pins` are those that devices have. -/
structure Classifies (v : Vocabulary) (pins : Pins) (built t : NameTable) : Prop where
  heading : ∀ w s, v.section? (t.intern w).1 = some s ↔ w = s.heading
  keyword : ∀ w k, v.keyword? (t.intern w).1 = some k ↔ w = k.word
  pin : ∀ w, v.isPin (t.intern w).1 = true ↔ w ∈ Pin.words
  /-- Statements and devices have the same pins. -/
  shared : ∀ id, v.isPin id = true ↔
    id ∈ pins.numbered ++ pins.dtypeInputs ++ pins.dtypeOutputs
  heading_alone : ∀ id, v.section? id ≠ none → v.keyword? id = none ∧ v.isPin id = false
  keyword_alone : ∀ id, v.keyword? id ≠ none → v.section? id = none ∧ v.isPin id = false
  pin_alone : ∀ id, v.isPin id = true → v.section? id = none ∧ v.keyword? id = none
  /-- Words that come later are in no class. -/
  later : ∀ id, built.text? id = none →
    v.section? id = none ∧ v.keyword? id = none ∧ v.isPin id = false

/-- **A vocabulary classifies by text**, whatever its table and that of the pins grow into. -/
theorem classifies_of_le {tv tp t : NameTable} (hv : (intern tv).2 ≤ t)
    (hp : (Pins.intern tp).2 ≤ t) :
    (intern tv).1.Classifies (Pins.intern tp).1 (intern tv).2 t := by
  have hbuilt : ∀ w ∈ words, w ∈ (intern tv).2.names := words_subset_intern tv
  have hwords : ∀ w ∈ words, w ∈ t.names := fun w hw => NameTable.mem_of_le hv (hbuilt w hw)
  rw [intern_fst hv, Pins.intern_fst hp]
  generalize (intern tv).2 = built at hv hbuilt
  have hsection {id : NameId} (h : ∀ s, ¬ReservedAs t id (.heading s)) :
      (ofNames t).section? id = none := Option.eq_none_iff_forall_ne_some.mpr fun s hs =>
    h s ((section?_eq_some_iff hwords).mp hs)
  have hkeyword {id : NameId} (h : ∀ k, ¬ReservedAs t id (.keyword k)) :
      (ofNames t).keyword? id = none := Option.eq_none_iff_forall_ne_some.mpr fun k hk =>
    h k ((keyword?_eq_some_iff hwords).mp hk)
  have hpin {id : NameId} (h : ¬ReservedAs t id .pin) : (ofNames t).isPin id = false :=
    Bool.eq_false_iff.mpr fun hpin => h (isPin_iff.mp hpin)
  -- An identifier of one class is of no other.
  have hother {id : NameId} {c c' : WordClass} (h : ReservedAs t id c) (hne : c ≠ c') :
      ¬ReservedAs t id c' := fun h' => hne (h.unique hwords h')
  exact {
    heading w s := (section?_eq_some_iff hwords).trans
      ((reservedAs_idOf_iff hwords (by simp)).trans ofText_eq_heading_iff)
    keyword w k := (keyword?_eq_some_iff hwords).trans
      ((reservedAs_idOf_iff hwords (by simp)).trans ofText_eq_keyword_iff)
    pin w := isPin_iff.trans ((reservedAs_idOf_iff hwords (by simp)).trans ofText_eq_pin_iff)
    shared id := by rw [isPin_iff, mem_pins_iff]
    heading_alone id h := by
      obtain ⟨s, hs⟩ := Option.ne_none_iff_exists'.mp h
      have hs := (section?_eq_some_iff hwords).mp hs
      exact ⟨hkeyword fun k => hother hs nofun, hpin (hother hs nofun)⟩
    keyword_alone id h := by
      obtain ⟨k, hk⟩ := Option.ne_none_iff_exists'.mp h
      have hk := (keyword?_eq_some_iff hwords).mp hk
      exact ⟨hsection fun s => hother hk nofun, hpin (hother hk nofun)⟩
    pin_alone id h := by
      have h := isPin_iff.mp h
      exact ⟨hsection fun s => hother h nofun, hkeyword fun k => hother h nofun⟩
    later id h := by
      have hnone {c : WordClass} : ¬ReservedAs t id c := fun hc =>
        hc.text?_ne_none hv hbuilt h
      exact ⟨hsection fun s => hnone, hkeyword fun k => hnone, hpin hnone⟩ }

end Vocabulary

/-! ## Scanning over two tables -/

namespace TokenStream

/-- Two answers that differ in their words only. -/
structure Answer.Like (W : Word → Word → Prop) (a a' : Answer) : Prop where
  kind? : Option.Rel (TokenKind.Like W) a.kind? a'.kind?
  position : a.position = a'.position

/-- Two streams with the same rest of a source, each with a table of its own. -/
structure Abreast (s s' : TokenStream) : Prop where
  pending : s.pending = s'.pending
  position : s.position = s'.position
  left : s.Sound
  right : s'.Sound

variable {s s' : TokenStream} {t t' : NameTable}

theorem abreast_ofSource (source : String) (t t' : NameTable) :
    (ofSource source t).Abreast (ofSource source t') where
  pending := (pending_ofLexemes _ _).trans (pending_ofLexemes _ _).symm
  position := (position_ofLexemes _ _).trans (position_ofLexemes _ _).symm
  left := sound_ofLexemes _ _
  right := sound_ofLexemes _ _

theorem Abreast.behind (h : s.Abreast s') (ls rest : List Lexeme) :
    (s.behind ls rest).Abreast (s'.behind ls rest) where
  pending := rfl
  position := congrArg (Position.after · (ls.flatMap Lexeme.text)) h.position
  left := h.left.behind ls rest
  right := h.right.behind ls rest

theorem Abreast.skipBlank (h : s.Abreast s') : s.skipBlank.Abreast s'.skipBlank where
  pending := congrArg (List.dropWhile Lexeme.isBlank) h.pending
  position := by
    unfold TokenStream.skipBlank
    rw [h.pending, h.position]
  left := ⟨h.left.vocabulary, h.left.words⟩
  right := ⟨h.right.vocabulary, h.right.words⟩

theorem le_names_ask (s : TokenStream) (mode : ReadMode) : s.names ≤ (s.ask mode).2.names := by
  cases mode with
  | skipping => exact s.le_names_next
  | raw => exact s.le_names_nextRaw

theorem le_names_askAll (s : TokenStream) (modes : List ReadMode) :
    s.names ≤ (s.askAll modes).2.names := by
  induction modes generalizing s with
  | nil => exact le_rfl
  | cons mode modes ih => exact le_trans (s.le_names_ask mode) (ih _)

theorem ask_raw_of_nil (hp : s.pending = []) : s.ask .raw = (⟨none, s.position⟩, s) := by
  unfold ask
  rw [nextRaw_nil hp]
  rfl

/-- A raw call answers the token of the first lexeme over any table that has its words. -/
theorem ask_raw_of_cons {l : Lexeme} {ls : List Lexeme} (h : s.Sound) (hp : s.pending = l :: ls)
    (ht : (s.behind [l] ls).names ≤ t) :
    s.ask .raw = (⟨some (l.kindOver t), s.position⟩, s.behind [l] ls) := by
  have hword : (s.names.internAll l.interned).2 ≤ t := by
    have := ht
    simpa [TokenStream.behind] using this
  unfold ask
  rw [nextRaw_of_cons hp, read_eq h hword]
  rfl

/-- A raw call answers alike on streams that are abreast, and leaves streams that are. -/
theorem Abreast.ask_raw (h : s.Abreast s') (ht : (s.ask .raw).2.names ≤ t)
    (ht' : (s'.ask .raw).2.names ≤ t') :
    (s.ask .raw).1.Like (Word.Twin t t') (s'.ask .raw).1 ∧
      (s.ask .raw).2.Abreast (s'.ask .raw).2 := by
  cases hp : s.pending with
  | nil =>
    rw [ask_raw_of_nil hp, ask_raw_of_nil (h.pending.symm.trans hp)]
    exact ⟨⟨.none, h.position⟩, h⟩
  | cons l ls =>
    have hp' := h.pending.symm.trans hp
    rw [ask_raw_of_cons h.left hp le_rfl] at ht
    rw [ask_raw_of_cons h.right hp' le_rfl] at ht'
    rw [ask_raw_of_cons h.left hp ht, ask_raw_of_cons h.right hp' ht']
    have hknows : t.Knows [l] := fun w hw =>
      NameTable.mem_of_le ht (NameTable.mem_internAll_iff.mpr (.inr hw))
    have hknows' : t'.Knows [l] := fun w hw =>
      NameTable.mem_of_le ht' (NameTable.mem_internAll_iff.mpr (.inr hw))
    exact ⟨⟨.some (Lexeme.kindOver_like hknows hknows'), h.position⟩, h.behind [l] ls⟩

/-- **A call answers alike on streams that are abreast**, and leaves streams that are. -/
theorem Abreast.ask (h : s.Abreast s') (mode : ReadMode) (ht : (s.ask mode).2.names ≤ t)
    (ht' : (s'.ask mode).2.names ≤ t') :
    (s.ask mode).1.Like (Word.Twin t t') (s'.ask mode).1 ∧
      (s.ask mode).2.Abreast (s'.ask mode).2 := by
  cases mode with
  | skipping => exact h.skipBlank.ask_raw ht ht'
  | raw => exact h.ask_raw ht ht'

/-- **Calls answer alike on streams that are abreast.** -/
theorem Abreast.askAll (h : s.Abreast s') (modes : List ReadMode)
    (ht : (s.askAll modes).2.names ≤ t) (ht' : (s'.askAll modes).2.names ≤ t') :
    List.Forall₂ (Answer.Like (Word.Twin t t')) (s.askAll modes).1 (s'.askAll modes).1 := by
  induction modes generalizing s s' with
  | nil => exact .nil
  | cons mode modes ih =>
    obtain ⟨hanswer, hrest⟩ := h.ask mode (le_trans (le_names_askAll _ modes) ht)
      (le_trans (le_names_askAll _ modes) ht')
    exact .cons hanswer (ih hrest ht ht')

end TokenStream

/-! ## Any history -/

/-- **A word is reserved by its text, whatever was interned.** The reserved words are interned for
devices and for statements, in either order, and other words before, in between and afterwards; then
the vocabulary classifies every word by its text, and has the pins that devices have. So any calls
answer alike on a source over any two tables: the same kinds of tokens with the same texts at the
same positions. -/
theorem Vocabulary.classifies_anywhere (before between after : List String) :
    let t := (NameTable.empty.internAll before).2
    (let p := Pins.intern t
      let v := Vocabulary.intern (p.2.internAll between).2
      v.1.Classifies p.1 v.2 (v.2.internAll after).2) ∧
    (let v := Vocabulary.intern t
      let p := Pins.intern (v.2.internAll between).2
      v.1.Classifies p.1 v.2 (p.2.internAll after).2) ∧
    ∀ (source : String) (names names' : NameTable) (modes : List TokenStream.ReadMode),
      let scan := (TokenStream.ofSource source names).askAll modes
      let scan' := (TokenStream.ofSource source names').askAll modes
      List.Forall₂ (TokenStream.Answer.Like (Word.Twin scan.2.names scan'.2.names))
        scan.1 scan'.1 := by
  intro t
  refine ⟨?_, ?_, fun source names names' modes => ?_⟩
  · intro p v
    have hv : v.2 ≤ (v.2.internAll after).2 := le_internAll _ _
    have hp : p.2 ≤ v.2 := le_trans (le_internAll _ between) (Vocabulary.le_intern _)
    exact classifies_of_le hv (le_trans hp hv)
  · intro v p
    have hp : p.2 ≤ (p.2.internAll after).2 := le_internAll _ _
    have hv : v.2 ≤ p.2 := le_trans (le_internAll _ between) (Pins.le_intern _)
    exact classifies_of_le (le_trans hv hp) hp
  · exact (TokenStream.abreast_ofSource source names names').askAll modes le_rfl le_rfl

end Netlist
