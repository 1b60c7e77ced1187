import Netlist.Proofs.Interning
import Netlist.TokenStream

/-!
# Tokens over a name table

Reading interns words one after the other, so a token stream carries a table that grows while it is
read. Over a table that holds all words of the source, a token is read off its lexeme alone:
`Lexeme.tokensOver t p ls` are the tokens of the lexemes `ls` from the position `p` on. Reading a
sound stream answers these tokens, for every table that the stream can still grow into.

## Results

* `TokenStream.readAll_eq`, `TokenStream.nextRaw_eq`, `TokenStream.next_eq`: what is read, and the
  stream behind it (`TokenStream.behind`).
-/

namespace Netlist

/-- The lexeme of a kind that has only one. -/
def TokenKind.sign? : TokenKind → Option Lexeme
  | .comma => some (.mark ',')
  | .semicolon => some (.mark ';')
  | .colon => some (.mark ':')
  | .dot => some (.mark '.')
  | .equal => some (.mark '=')
  | .arrow => some .arrow
  | _ => none

namespace Lexeme

/-- The text that is interned when a lexeme is read. -/
def interned : Lexeme → List String
  | .word text | .numeral text => [String.ofList text]
  | _ => []

/-- A word or numeral, with its identifier over a table. -/
def wordOver (t : NameTable) (text : List Char) : Word :=
  ⟨t.idOf (String.ofList text), String.ofList text⟩

/-- The kind of the token of a lexeme over a table. -/
def kindOver (t : NameTable) : Lexeme → TokenKind
  | .blank _ => .space
  | .word text => .ofWord (wordOver t text) (.ofText (String.ofList text))
  | .numeral text => .number (wordOver t text)
  | .arrow => .arrow
  | .mark c => .ofMark c

/-- The tokens of lexemes from a position on, over a table. -/
def tokensOver (t : NameTable) (p : Position) : List Lexeme → List Token
  | [] => []
  | l :: ls => ⟨l.kindOver t, p⟩ :: tokensOver t (p.after l.text) ls

variable {t : NameTable} {p : Position} {l : Lexeme} {ls : List Lexeme}

@[simp] theorem tokensOver_nil : tokensOver t p [] = [] := rfl

@[simp] theorem tokensOver_cons :
    tokensOver t p (l :: ls) = ⟨l.kindOver t, p⟩ :: tokensOver t (p.after l.text) ls := rfl

theorem tokensOver_append (ls ms : List Lexeme) :
    tokensOver t p (ls ++ ms) =
      tokensOver t p ls ++ tokensOver t (p.after (ls.flatMap text)) ms := by
  induction ls generalizing p with
  | nil => rfl
  | cons l ls ih =>
    rw [List.cons_append, tokensOver_cons, ih, List.flatMap_cons, Position.after_append]
    rfl

/-! ## Kinds -/

theorem ofWord_ne_space (w : Word) (c : WordClass) : TokenKind.ofWord w c ≠ .space := by
  cases c <;> exact TokenKind.noConfusion

theorem ofMark_ne_space (c : Char) : TokenKind.ofMark c ≠ .space := by
  unfold TokenKind.ofMark
  split <;> exact TokenKind.noConfusion

/-- The kinds that a lexeme can be read as, however its text is interned and classified. -/
inductive ReadsAs : Lexeme → TokenKind → Prop
  | blank (text : List Char) : ReadsAs (.blank text) .space
  | word (text : List Char) (w : Word) (c : WordClass) : ReadsAs (.word text) (.ofWord w c)
  | numeral (text : List Char) (w : Word) : ReadsAs (.numeral text) (.number w)
  | arrow : ReadsAs .arrow .arrow
  | mark (c : Char) : ReadsAs (.mark c) (.ofMark c)

/-- White space, and only that, is read as white space. -/
theorem ReadsAs.eq_space_iff {k : TokenKind} (h : l.ReadsAs k) : k = .space ↔ l.isBlank = true := by
  cases h with
  | blank text => exact iff_of_true rfl rfl
  | word text w c => exact iff_of_false (ofWord_ne_space w c) Bool.false_ne_true
  | numeral text w => exact iff_of_false TokenKind.noConfusion Bool.false_ne_true
  | arrow => exact iff_of_false TokenKind.noConfusion Bool.false_ne_true
  | mark c => exact iff_of_false (ofMark_ne_space c) Bool.false_ne_true

theorem readsAs_kindOver (t : NameTable) (l : Lexeme) : l.ReadsAs (l.kindOver t) := by
  cases l <;> constructor

theorem kindOver_eq_space_iff : l.kindOver t = .space ↔ l.isBlank = true :=
  (l.readsAs_kindOver t).eq_space_iff

theorem kindOver_ne_space (h : l.isBlank = false) : l.kindOver t ≠ .space := fun hk => by
  rw [kindOver_eq_space_iff, h] at hk
  cases hk

theorem ofWord_word? (w : Word) (c : WordClass) : (TokenKind.ofWord w c).word? = some w := by
  cases c <;> rfl

theorem ofMark_word? (c : Char) : (TokenKind.ofMark c).word? = none := by
  unfold TokenKind.ofMark
  split <;> rfl

/-- A sign is read off its own lexeme and no other. -/
theorem kindOver_eq_iff {k : TokenKind} {sign : Lexeme} (hk : k.sign? = some sign) :
    l.kindOver t = k ↔ l = sign := by
  have hword : k.word? = none := by cases k <;> first | rfl | cases hk
  constructor
  · intro h
    cases l with
    | mark c =>
      have hc : TokenKind.ofMark c = k := h
      unfold TokenKind.ofMark at hc
      split at hc <;> subst hc <;> cases hk <;> rfl
    | arrow =>
      have ha : TokenKind.arrow = k := h
      subst ha
      exact Option.some.inj hk
    | blank text =>
      have hb : TokenKind.space = k := h
      subst hb
      cases hk
    | word text =>
      have hw := ofWord_word? (wordOver t text) (.ofText (String.ofList text))
      rw [show TokenKind.ofWord _ _ = k from h, hword] at hw
      cases hw
    | numeral text =>
      have hn : TokenKind.number (wordOver t text) = k := h
      subst hn
      cases hk
  · rintro rfl
    cases k <;> cases hk <;> rfl

theorem kindOver_eq_semicolon_iff : l.kindOver t = .semicolon ↔ l = .mark ';' :=
  kindOver_eq_iff rfl

theorem kindOver_eq_colon_iff : l.kindOver t = .colon ↔ l = .mark ':' :=
  kindOver_eq_iff rfl

end Lexeme

/-! ## Reading a stream -/

namespace TokenStream

open Lexeme (interned tokensOver)
open NameTable (le_rfl le_trans le_insert le_internAll)

/-- The stream behind the lexemes `ls`, with `rest` still to be read. -/
def behind (s : TokenStream) (ls rest : List Lexeme) : TokenStream where
  pending := rest
  position := s.position.after (ls.flatMap Lexeme.text)
  names := (s.names.internAll (ls.flatMap interned)).2
  vocabulary := s.vocabulary

/-- The names when all the rest is read. -/
def allNames (s : TokenStream) : NameTable := (s.names.internAll (s.pending.flatMap interned)).2

/-- The vocabulary of a stream is the one of its names. -/
structure Sound (s : TokenStream) : Prop where
  vocabulary : s.vocabulary = .ofNames s.names
  words : ∀ w ∈ Vocabulary.words, w ∈ s.names.names

theorem sound_ofLexemes (ls : List Lexeme) (t : NameTable) : (ofLexemes ls t).Sound := by
  have hv : (Vocabulary.intern t).1 = .ofNames (Vocabulary.intern t).2 :=
    Vocabulary.intern_fst le_rfl
  have hw := Vocabulary.words_subset_intern t
  unfold ofLexemes
  generalize Vocabulary.intern t = v at hv hw ⊢
  exact ⟨hv, hw⟩

theorem pending_ofLexemes (ls : List Lexeme) (t : NameTable) : (ofLexemes ls t).pending = ls := by
  unfold ofLexemes
  generalize Vocabulary.intern t = v
  rfl

theorem position_ofLexemes (ls : List Lexeme) (t : NameTable) :
    (ofLexemes ls t).position = .start := by
  unfold ofLexemes
  generalize Vocabulary.intern t = v
  rfl

theorem le_names_ofLexemes (ls : List Lexeme) (t : NameTable) : t ≤ (ofLexemes ls t).names := by
  have h := Vocabulary.le_intern t
  unfold ofLexemes
  generalize Vocabulary.intern t = v at h ⊢
  exact h

variable {s : TokenStream} {t : NameTable} {l : Lexeme} {ls ms rest : List Lexeme}

theorem Sound.behind (h : s.Sound) (ls rest : List Lexeme) : (s.behind ls rest).Sound where
  vocabulary := h.vocabulary.trans (Vocabulary.ofNames_of_le (le_internAll _ _) h.words).symm
  words := fun w hw => NameTable.mem_of_le (le_internAll _ _) (h.words w hw)

theorem behind_behind (s : TokenStream) (ls ms rest rest' : List Lexeme) :
    (s.behind ls rest).behind ms rest' = s.behind (ls ++ ms) rest' := by
  unfold TokenStream.behind
  rw [List.flatMap_append, List.flatMap_append, Position.after_append, NameTable.internAll_append]

theorem behind_nil (s : TokenStream) : s.behind [] s.pending = s := rfl

theorem allNames_behind (h : s.pending = ls ++ rest) :
    (s.behind ls rest).allNames = s.allNames := by
  unfold allNames TokenStream.behind
  rw [h, List.flatMap_append, NameTable.internAll_append]

theorem names_le_allNames (s : TokenStream) : s.names ≤ s.allNames := le_internAll _ _

theorem interned_le_allNames (h : s.pending = ls ++ rest) :
    (s.names.internAll (ls.flatMap interned)).2 ≤ s.allNames := by
  unfold allNames
  rw [h, List.flatMap_append, NameTable.internAll_append]
  exact le_internAll _ _

theorem internWord_eq {text : List Char} (ht : s.names.insert (String.ofList text) ≤ t) :
    s.internWord text =
      (Lexeme.wordOver t text, { s with names := s.names.insert (String.ofList text) }) := by
  unfold internWord Lexeme.wordOver
  rw [← NameTable.intern_fst ht]
  rfl

theorem classify_eq (h : s.Sound) (ht : s.names ≤ t) (w : String) :
    s.vocabulary.classify (t.idOf w) = .ofText w := by
  rw [h.vocabulary, ← Vocabulary.ofNames_of_le ht h.words]
  exact Vocabulary.classify_ofNames (fun w hw => NameTable.mem_of_le ht (h.words w hw)) w

theorem readKind_eq (h : s.Sound) (ht : (s.names.internAll l.interned).2 ≤ t) :
    s.readKind l =
      (l.kindOver t, { s with names := (s.names.internAll l.interned).2 }) := by
  have hle : s.names ≤ t := le_trans (le_internAll _ _) ht
  cases l with
  | word text =>
    have hclass : s.vocabulary.classify (Lexeme.wordOver t text).id = _ := classify_eq h hle _
    simp only [readKind, internWord_eq (show s.names.insert _ ≤ t from ht), hclass]
    rfl
  | numeral text =>
    simp only [readKind, internWord_eq (show s.names.insert _ ≤ t from ht)]
    rfl
  | blank text => rfl
  | arrow => rfl
  | mark c => rfl

/-- **A lexeme is read as its token over any later table.** -/
theorem read_eq (h : s.Sound) (ht : (s.names.internAll l.interned).2 ≤ t) :
    s.read l = (⟨l.kindOver t, s.position⟩, s.behind [l] s.pending) := by
  unfold read
  rw [readKind_eq h ht]
  simp only [TokenStream.behind, List.flatMap_singleton]

theorem readAll_eq (h : s.Sound) (ht : (s.names.internAll (ls.flatMap interned)).2 ≤ t) :
    s.readAll ls = (tokensOver t s.position ls, s.behind ls s.pending) := by
  induction ls generalizing s with
  | nil => rfl
  | cons l ls ih =>
    rw [List.flatMap_cons, NameTable.internAll_append] at ht
    have hread := read_eq h (l := l) (le_trans (le_internAll _ _) ht)
    have hsound := h.behind [l] s.pending
    have htail := ih hsound (by simpa [TokenStream.behind] using ht)
    simp only [readAll, hread, htail, behind_behind]
    simp [TokenStream.behind]

theorem nextRaw_eq (h : s.Sound) (hp : s.pending = l :: ls) (ht : s.allNames ≤ t) :
    s.nextRaw = (some ⟨l.kindOver t, s.position⟩, s.behind [l] ls) := by
  have hword : (s.names.internAll ([l].flatMap interned)).2 ≤ t :=
    le_trans (interned_le_allNames hp) ht
  rw [List.flatMap_singleton] at hword
  unfold nextRaw
  rw [hp]
  simp only
  rw [read_eq h hword]
  rfl

theorem nextRaw_nil (hp : s.pending = []) : s.nextRaw = (none, s) := by
  unfold nextRaw
  rw [hp]

/-! ## Passing over white space -/

theorem interned_of_isBlank (h : l.isBlank = true) : l.interned = [] := by
  cases l with
  | blank text => rfl
  | word text => exact absurd h Bool.false_ne_true
  | numeral text => exact absurd h Bool.false_ne_true
  | arrow => exact absurd h Bool.false_ne_true
  | mark c => exact absurd h Bool.false_ne_true

theorem flatMap_interned_of_blank (h : ∀ l ∈ ls, l.isBlank = true) : ls.flatMap interned = [] := by
  refine List.flatMap_eq_nil_iff.mpr fun l hl => interned_of_isBlank (h l hl)

theorem skipBlank_eq (hp : s.pending = ls ++ rest) (hls : ∀ l ∈ ls, l.isBlank = true)
    (hrest : ∀ l ∈ rest.head?, l.isBlank = false) : s.skipBlank = s.behind ls rest := by
  have htake : s.pending.takeWhile Lexeme.isBlank = ls := by
    rw [hp, List.takeWhile_append_of_pos hls]
    cases rest with
    | nil => simp
    | cons l rest => rw [List.takeWhile_cons_of_neg (by simp [hrest l rfl]), List.append_nil]
  have hdrop : s.pending.dropWhile Lexeme.isBlank = rest := by
    rw [hp, List.dropWhile_append_of_pos hls]
    cases rest with
    | nil => rfl
    | cons l rest => rw [List.dropWhile_cons_of_neg (by simp [hrest l rfl])]
  unfold skipBlank TokenStream.behind
  rw [htake, hdrop, flatMap_interned_of_blank hls]
  rfl

theorem next_eq (h : s.Sound) (hp : s.pending = ls ++ l :: rest)
    (hls : ∀ l ∈ ls, l.isBlank = true) (hl : l.isBlank = false) (ht : s.allNames ≤ t) :
    s.next = (some ⟨l.kindOver t, s.position.after (ls.flatMap Lexeme.text)⟩,
      s.behind (ls ++ [l]) rest) := by
  unfold next
  rw [skipBlank_eq hp hls (fun m hm => by cases hm; exact hl),
    nextRaw_eq (h.behind ls _) rfl (by rw [allNames_behind hp]; exact ht), behind_behind]
  rfl

theorem next_none (hp : ∀ l ∈ s.pending, l.isBlank = true) :
    s.next = (none, s.behind s.pending []) := by
  unfold next
  rw [skipBlank_eq (List.append_nil _).symm hp (by simp), nextRaw_nil rfl]

end TokenStream

end Netlist
