import Mathlib.Data.List.Basic
import Mathlib.Tactic.Tauto
import Netlist.Vocabulary

/-!
# Identifiers and reserved words

A name table only grows at its end (`≤`), and every identifier that was assigned keeps its meaning
in all larger tables. So an identifier can be named by its string over any later table (`idOf`),
and the reserved words of a table are the same in every table that grows out of it.

## Results

* `NameTable.idOf_of_le`, `NameTable.idOf_inj`: identifiers are stable, and two strings never share
  one.
* `NameTable.names_internAll`: interning keeps of every string its first occurrence.
* `Pins.intern_fst`, `Vocabulary.intern_fst`: the reserved words, read over any later table.
* `Vocabulary.classify_ofNames`: **a word is classified by its text alone.**
-/

namespace Netlist

namespace NameTable

/-- `t ≤ t'`: the table `t'` grows out of `t`. -/
instance : LE NameTable where
  le t t' := t.names <+: t'.names

/-- The identifier of a string over a table. -/
def idOf (t : NameTable) (s : String) : NameId := t.names.idxOf s

variable {t t' u : NameTable} {s s' : String} {ss : List String}

theorem le_rfl : t ≤ t := List.prefix_refl _

theorem le_trans (h : t ≤ t') (h' : t' ≤ u) : t ≤ u := List.IsPrefix.trans h h'

theorem mem_of_le (h : t ≤ t') (hs : s ∈ t.names) : s ∈ t'.names :=
  List.IsPrefix.subset h hs

/-! ## Interning -/

theorem le_insert (t : NameTable) (s : String) : t ≤ t.insert s := by
  show t.names <+: (t.insert s).names
  rw [names_insert]
  split
  · exact List.prefix_refl _
  · exact List.prefix_append _ _

theorem mem_insert (t : NameTable) (s : String) : s ∈ (t.insert s).names := by
  rw [names_insert]
  split
  · assumption
  · exact List.mem_append_right _ (List.mem_singleton.mpr rfl)

theorem insert_of_mem (h : s ∈ t.names) : t.insert s = t := by
  unfold insert
  rw [dif_pos h]

theorem mem_insert_iff : s' ∈ (t.insert s).names ↔ s' ∈ t.names ∨ s' = s := by
  rw [names_insert]
  split
  · rename_i h
    exact ⟨Or.inl, fun h' => h'.elim id fun e => e ▸ h⟩
  · rw [List.mem_append, List.mem_singleton]

/-- A string and its identifier, over any later table. -/
theorem idOf_of_le (h : t ≤ t') (hs : s ∈ t.names) : t'.idOf s = t.idOf s := by
  obtain ⟨us, hus⟩ := h
  unfold idOf
  rw [← hus, List.idxOf_append_of_mem hs]

theorem intern_fst (h : t.insert s ≤ t') : (t.intern s).1 = t'.idOf s := by
  rw [idOf_of_le h (mem_insert t s)]
  show t.names.idxOf s = (t.insert s).names.idxOf s
  rw [names_insert]
  split
  · rfl
  · rename_i hs
    rw [List.idxOf_append_of_notMem hs, List.idxOf_eq_length hs]
    simp

theorem text?_of_le {id : NameId} (h : t ≤ t') (hs : t.text? id = some s) :
    t'.text? id = some s := by
  obtain ⟨us, hus⟩ := h
  have hlt := (List.getElem?_eq_some_iff.mp hs).1
  unfold text? at hs ⊢
  rw [← hus, List.getElem?_append_left hlt, hs]

theorem text?_idOf (hs : s ∈ t.names) : t.text? (t.idOf s) = some s := by
  unfold text? idOf
  rw [List.getElem?_eq_getElem (List.idxOf_lt_length_of_mem hs), List.getElem_idxOf]

theorem idOf_eq_iff_text? {id : NameId} (hs : s ∈ t.names) :
    t.idOf s = id ↔ t.text? id = some s := by
  refine ⟨fun h => h ▸ text?_idOf hs, fun h => ?_⟩
  have h1 := (query_eq_some_iff t s id).mpr h
  have h2 := (query_eq_some_iff t s (t.idOf s)).mpr (text?_idOf hs)
  exact Option.some.inj (h2.symm.trans h1)

/-- **Two strings never share an identifier.** -/
theorem idOf_inj (hs : s ∈ t.names) : t.idOf s = t.idOf s' ↔ s = s' :=
  ⟨fun h => (List.idxOf_inj hs).mp h, fun h => h ▸ rfl⟩

/-! ## Interning several strings -/

@[simp] theorem internAll_nil : t.internAll [] = ([], t) := rfl

@[simp] theorem internAll_cons :
    t.internAll (s :: ss) =
      ((t.intern s).1 :: ((t.insert s).internAll ss).1, ((t.insert s).internAll ss).2) := rfl

theorem le_internAll (t : NameTable) (ss : List String) : t ≤ (t.internAll ss).2 := by
  induction ss generalizing t with
  | nil => exact le_rfl
  | cons s ss ih => exact le_trans (le_insert t s) (ih _)

theorem mem_internAll_iff : s ∈ (t.internAll ss).2.names ↔ s ∈ t.names ∨ s ∈ ss := by
  induction ss generalizing t with
  | nil => simp
  | cons u us ih =>
    rw [internAll_cons, ih, mem_insert_iff, List.mem_cons, or_assoc]

theorem internAll_append (t : NameTable) (ss ts : List String) :
    (t.internAll (ss ++ ts)).2 = ((t.internAll ss).2.internAll ts).2 := by
  induction ss generalizing t with
  | nil => rfl
  | cons s ss ih => exact ih _

theorem internAll_of_subset (h : ∀ s ∈ ss, s ∈ t.names) : (t.internAll ss).2 = t := by
  induction ss with
  | nil => rfl
  | cons s ss ih =>
    rw [internAll_cons, insert_of_mem (h s List.mem_cons_self)]
    exact ih fun u hu => h u (List.mem_cons_of_mem s hu)

theorem internAll_fst (h : (t.internAll ss).2 ≤ t') : (t.internAll ss).1 = ss.map t'.idOf := by
  induction ss generalizing t with
  | nil => rfl
  | cons s ss ih =>
    rw [internAll_cons, List.map_cons, ih h, intern_fst (le_trans (le_internAll _ ss) h)]

/-- A list without repetitions keeps all of its elements. -/
theorem eraseDups_of_nodup {as : List String} (h : as.Nodup) : as.eraseDups = as := by
  induction as with
  | nil => rfl
  | cons a as ih =>
    obtain ⟨hnot, hnodup⟩ := List.nodup_cons.mp h
    have hkeep : as.filter (fun b => !b == a) = as := List.filter_eq_self.mpr fun b hb => by
      have hne : b ≠ a := fun he => hnot (he ▸ hb)
      simp [hne]
    rw [List.eraseDups_cons, hkeep, ih hnodup]

/-- **Interning keeps of every string its first occurrence.** -/
theorem names_internAll (t : NameTable) (ss : List String) :
    (t.internAll ss).2.names = (t.names ++ ss).eraseDups := by
  induction ss generalizing t with
  | nil => rw [internAll_nil, List.append_nil, eraseDups_of_nodup t.distinct]
  | cons s ss ih =>
    rw [internAll_cons, ih, names_insert]
    split
    · rename_i hs
      rw [List.eraseDups_append, List.eraseDups_append, List.cons_removeAll,
        if_neg (by simpa using hs)]
    · rw [List.append_assoc, List.singleton_append]

end NameTable

open NameTable (le_trans le_internAll idOf_of_le mem_of_le)

/-! ## Pins -/

namespace Pins

/-- The identifiers of the pin words over a table. -/
def ofNames (t : NameTable) : Pins where
  numbered := Pin.numberedWords.map t.idOf
  dtypeInputs := Pin.dtypeInputWords.map t.idOf
  dtypeOutputs := Pin.dtypeOutputWords.map t.idOf

theorem intern_eq (t : NameTable) :
    intern t =
      let n := t.internAll Pin.numberedWords
      let i := n.2.internAll Pin.dtypeInputWords
      let o := i.2.internAll Pin.dtypeOutputWords
      (⟨n.1, i.1, o.1⟩, o.2) := by
  unfold intern
  generalize Pin.numberedWords = ns, Pin.dtypeInputWords = is, Pin.dtypeOutputWords = os
  rfl

theorem intern_snd (t : NameTable) : (intern t).2 = (t.internAll Pin.words).2 := by
  unfold Pin.words
  rw [NameTable.internAll_append, NameTable.internAll_append, intern_eq]

theorem le_intern (t : NameTable) : t ≤ (intern t).2 := by
  rw [intern_snd]
  exact le_internAll _ _

theorem words_subset_intern (t : NameTable) : ∀ w ∈ Pin.words, w ∈ (intern t).2.names := by
  intro w hw
  rw [intern_snd]
  exact NameTable.mem_internAll_iff.mpr (Or.inr hw)

theorem intern_fst {t t' : NameTable} (h : (intern t).2 ≤ t') : (intern t).1 = ofNames t' := by
  rw [intern_eq] at h ⊢
  dsimp only at h ⊢
  have h2 := le_trans (le_internAll _ Pin.dtypeOutputWords) h
  have h1 := le_trans (le_internAll _ Pin.dtypeInputWords) h2
  simp only [NameTable.internAll_fst h1, NameTable.internAll_fst h2, NameTable.internAll_fst h,
    ofNames]

theorem ofNames_of_le {t t' : NameTable} (h : t ≤ t') (hw : ∀ w ∈ Pin.words, w ∈ t.names) :
    ofNames t' = ofNames t := by
  have h' : ∀ ws : List String, (∀ w ∈ ws, w ∈ Pin.words) → ws.map t'.idOf = ws.map t.idOf :=
    fun ws hws => List.map_congr_left fun w hm => idOf_of_le h (hw w (hws w hm))
  unfold ofNames
  rw [h' _ (by decide), h' _ (by decide), h' _ (by decide)]

end Pins

/-! ## The vocabulary -/

theorem Section.mem_all (s : Section) : s ∈ all := by
  cases s <;> decide

theorem Keyword.mem_all (k : Keyword) : k ∈ all := by
  cases k with
  | device kind => cases kind <;> decide
  | connect => decide
  | monitor => decide

/-- What a word stands for, read off its text. -/
def WordClass.ofText (w : String) : WordClass :=
  match Section.all.find? (·.heading = w) with
  | some s => .heading s
  | none =>
    match Keyword.all.find? (·.word = w) with
    | some k => .keyword k
    | none => if w ∈ Pin.words then .pin else .name

namespace Vocabulary

/-- Every reserved word, in the order of interning. -/
def words : List String :=
  Section.all.map Section.heading ++ Keyword.all.map Keyword.word ++ pinWords

theorem zip_map_self {α β : Type} (f : α → β) (as : List α) :
    (as.map f).zip as = as.map fun a => (f a, a) := by
  induction as with
  | nil => rfl
  | cons a as ih => rw [List.map_cons, List.zip_cons_cons, List.map_cons, ih]

theorem mem_pinWords_iff (w : String) : w ∈ pinWords ↔ w ∈ Pin.words := by
  unfold pinWords Pin.words
  simp only [List.mem_append]
  tauto

theorem mem_words_of_heading (s : Section) : s.heading ∈ words :=
  List.mem_append_left _ (List.mem_append_left _ (List.mem_map_of_mem s.mem_all))

theorem mem_words_of_keyword (k : Keyword) : k.word ∈ words :=
  List.mem_append_left _ (List.mem_append_right _ (List.mem_map_of_mem k.mem_all))

theorem mem_words_of_pin {w : String} (h : w ∈ Pin.words) : w ∈ words :=
  List.mem_append_right _ ((mem_pinWords_iff w).mpr h)

/-- No reserved word stands for two things. -/
theorem ofText_reserved :
    (∀ s ∈ Section.all, WordClass.ofText s.heading = .heading s) ∧
      (∀ k ∈ Keyword.all, WordClass.ofText k.word = .keyword k) ∧
      ∀ w ∈ Pin.words, WordClass.ofText w = .pin := by
  decide

theorem ofText_eq_heading_iff {w : String} {s : Section} :
    WordClass.ofText w = .heading s ↔ w = s.heading := by
  constructor
  · intro h
    unfold WordClass.ofText at h
    split at h
    · rename_i s' hs
      cases h
      have hw := List.find?_some hs
      exact (of_decide_eq_true hw).symm
    · split at h
      · cases h
      · split at h <;> cases h
  · rintro rfl
    exact ofText_reserved.1 s s.mem_all

theorem heading_inj {s s' : Section} (h : s.heading = s'.heading) : s = s' := by
  have hs : WordClass.ofText s.heading = .heading s := ofText_eq_heading_iff.mpr rfl
  rw [ofText_eq_heading_iff.mpr h] at hs
  cases hs
  rfl

theorem ofText_eq_keyword_iff {w : String} {k : Keyword} :
    WordClass.ofText w = .keyword k ↔ w = k.word := by
  constructor
  · intro h
    unfold WordClass.ofText at h
    split at h
    · cases h
    · split at h
      · rename_i k' hk
        cases h
        have hw := List.find?_some hk
        exact (of_decide_eq_true hw).symm
      · split at h <;> cases h
  · rintro rfl
    exact ofText_reserved.2.1 k k.mem_all

theorem ofText_eq_pin_iff {w : String} : WordClass.ofText w = .pin ↔ w ∈ Pin.words := by
  constructor
  · intro h
    unfold WordClass.ofText at h
    split at h
    · cases h
    · split at h
      · cases h
      · split at h
        · assumption
        · cases h
  · exact ofText_reserved.2.2 w

/-- A word is a name iff it is not reserved. -/
theorem ofText_eq_name_iff {w : String} : WordClass.ofText w = .name ↔ w ∉ words := by
  constructor
  · intro h hw
    unfold words at hw
    rw [List.mem_append, List.mem_append, List.mem_map, List.mem_map, mem_pinWords_iff] at hw
    rcases hw with (⟨s, -, rfl⟩ | ⟨k, -, rfl⟩) | hw
    · exact absurd (h.symm.trans (ofText_eq_heading_iff.mpr rfl)) (by simp)
    · exact absurd (h.symm.trans (ofText_eq_keyword_iff.mpr rfl)) (by simp)
    · exact absurd (h.symm.trans (ofText_eq_pin_iff.mpr hw)) (by simp)
  · intro h
    cases hc : WordClass.ofText w with
    | heading s =>
      rw [ofText_eq_heading_iff.mp hc] at h
      exact absurd (mem_words_of_heading s) h
    | keyword k =>
      rw [ofText_eq_keyword_iff.mp hc] at h
      exact absurd (mem_words_of_keyword k) h
    | pin => exact absurd (mem_words_of_pin (ofText_eq_pin_iff.mp hc)) h
    | name => rfl

/-- The reserved words over a table. -/
def ofNames (t : NameTable) : Vocabulary where
  headings := Section.all.map fun s => (t.idOf s.heading, s)
  keywords := Keyword.all.map fun k => (t.idOf k.word, k)
  pins := pinWords.map t.idOf

theorem intern_eq (t : NameTable) :
    intern t =
      let h := t.internAll (Section.all.map Section.heading)
      let k := h.2.internAll (Keyword.all.map Keyword.word)
      let p := k.2.internAll pinWords
      (⟨h.1.zip Section.all, k.1.zip Keyword.all, p.1⟩, p.2) := by
  unfold intern
  generalize Section.all.map Section.heading = hs, Keyword.all.map Keyword.word = ks,
    pinWords = ps
  rfl

theorem intern_snd (t : NameTable) : (intern t).2 = (t.internAll words).2 := by
  unfold words
  rw [NameTable.internAll_append, NameTable.internAll_append, intern_eq]

theorem le_intern (t : NameTable) : t ≤ (intern t).2 := by
  rw [intern_snd]
  exact le_internAll _ _

theorem words_subset_intern (t : NameTable) : ∀ w ∈ words, w ∈ (intern t).2.names := by
  intro w hw
  rw [intern_snd]
  exact NameTable.mem_internAll_iff.mpr (Or.inr hw)

theorem intern_fst {t t' : NameTable} (h : (intern t).2 ≤ t') : (intern t).1 = ofNames t' := by
  rw [intern_eq] at h ⊢
  dsimp only at h ⊢
  have h2 := le_trans (le_internAll _ pinWords) h
  have h1 := le_trans (le_internAll _ (Keyword.all.map Keyword.word)) h2
  simp only [NameTable.internAll_fst h1, NameTable.internAll_fst h2, NameTable.internAll_fst h,
    List.map_map, zip_map_self, ofNames, Function.comp_def]

/-- A look-up by identifier is a look-up by word. -/
theorem lookup_idOf {α : Type} {t : NameTable} {w : String} (word : α → String) :
    ∀ {as : List α}, (∀ a ∈ as, word a ∈ t.names) →
      (as.map fun a => (t.idOf (word a), a)).lookup (t.idOf w) = as.find? fun a => word a = w
  | [], _ => rfl
  | a :: as, h => by
    have ih := lookup_idOf word (w := w) fun b hb => h b (List.mem_cons_of_mem a hb)
    rw [List.map_cons, List.lookup_cons, List.find?_cons, ih]
    have hid : t.idOf (word a) = t.idOf w ↔ word a = w :=
      NameTable.idOf_inj (h a List.mem_cons_self)
    by_cases hw : word a = w
    · simp [hw]
    · have : (t.idOf w == t.idOf (word a)) = false :=
        beq_eq_false_iff_ne.mpr fun e => hw (hid.mp e.symm)
      simp only [this, hw, decide_false]

theorem contains_idOf {t : NameTable} {w : String} {ws : List String}
    (h : ∀ v ∈ ws, v ∈ t.names) : (ws.map t.idOf).contains (t.idOf w) = decide (w ∈ ws) := by
  rw [Bool.eq_iff_iff, List.contains_iff_mem, decide_eq_true_iff, List.mem_map]
  constructor
  · rintro ⟨v, hv, he⟩
    exact (NameTable.idOf_inj (h v hv)).mp he ▸ hv
  · exact fun hw => ⟨w, hw, rfl⟩

/-- **A word is classified by its text alone**, over any table that holds the reserved words. -/
theorem classify_ofNames {t : NameTable} (h : ∀ w ∈ words, w ∈ t.names) (w : String) :
    (ofNames t).classify (t.idOf w) = .ofText w := by
  have hh : ∀ s ∈ Section.all, Section.heading s ∈ t.names :=
    fun s _ => h _ (mem_words_of_heading s)
  have hk : ∀ k ∈ Keyword.all, Keyword.word k ∈ t.names := fun k _ => h _ (mem_words_of_keyword k)
  have hp : ∀ v ∈ pinWords, v ∈ t.names := fun v hv => h _ (List.mem_append_right _ hv)
  have hsection : (ofNames t).section? (t.idOf w) = Section.all.find? fun s => s.heading = w :=
    lookup_idOf Section.heading hh
  have hkeyword : (ofNames t).keyword? (t.idOf w) = Keyword.all.find? fun k => k.word = w :=
    lookup_idOf Keyword.word hk
  have hpin : (ofNames t).isPin (t.idOf w) = decide (w ∈ Pin.words) :=
    (contains_idOf hp).trans (decide_eq_decide.mpr (mem_pinWords_iff w))
  unfold classify WordClass.ofText
  cases hfound : Section.all.find? fun s => s.heading = w with
  | some s => simp only [hsection, hfound]
  | none =>
    cases hfound' : Keyword.all.find? fun k => k.word = w with
    | some k => simp only [hsection, hkeyword, hfound, hfound']
    | none => simp only [hsection, hkeyword, hpin, hfound, hfound', decide_eq_true_eq]

theorem ofNames_of_le {t t' : NameTable} (h : t ≤ t') (hw : ∀ w ∈ words, w ∈ t.names) :
    ofNames t' = ofNames t := by
  have hid : ∀ w ∈ words, t'.idOf w = t.idOf w := fun w hm => idOf_of_le h (hw w hm)
  unfold ofNames
  congr 1
  · exact List.map_congr_left fun s hs => by
      rw [hid _ (List.mem_append_left _ (List.mem_append_left _ (List.mem_map_of_mem hs)))]
  · exact List.map_congr_left fun k hk => by
      rw [hid _ (List.mem_append_left _ (List.mem_append_right _ (List.mem_map_of_mem hk)))]
  · exact List.map_congr_left fun w hm => hid _ (List.mem_append_right _ hm)

end Vocabulary

end Netlist
