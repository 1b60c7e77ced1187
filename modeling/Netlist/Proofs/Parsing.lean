import Netlist.Proofs.Grammar
import Netlist.Proofs.Lockstep
import Netlist.Proofs.Naming
import Netlist.Proofs.Segmentation

/-!
# What the readers accept

A reader parses a language when it succeeds on the lexemes that spell a word of the language, with
the answer that belongs to the word, and on no others. `Parses t x erase G` says this of the reader
`x` over the table `t`: `G ps b` holds of the symbols `ps` with the answer `b`, and `erase` forgets
the positions that an answer of the reader holds besides.

## Results

* `Parses.bind`: what a sequence of readers parses.
* `parses_expect`, `parses_expectRaw`: what the readers of single tokens parse.
-/

namespace Netlist

open Lexeme (tokensOver)

/-- The reader `x` succeeds on what spells a word of `G`, and on nothing else. -/
structure Parses (t : NameTable) {α β : Type} (x : TokenReader (List Token) α) (erase : α → β)
    (G : List Symbol → β → Prop) : Prop where
  sound : ∀ {p ls a ts}, x.runOn (tokensOver t p ls) = (.ok a, ts) →
    ∃ ps rest p', G ps (erase a) ∧ Spells ps ls rest ∧ ts = tokensOver t p' rest
  complete : ∀ {p ls ps b rest}, G ps b → Spells ps ls rest →
    ∃ a p', erase a = b ∧ x.runOn (tokensOver t p ls) = (.ok a, tokensOver t p' rest)

namespace Parses

variable {t : NameTable} {α β γ δ : Type} {x : TokenReader (List Token) α} {erase : α → β}
  {G G' : List Symbol → β → Prop}

theorem congr (h : Parses t x erase G) (hG : ∀ ps b, G ps b ↔ G' ps b) : Parses t x erase G' where
  sound hx := by
    obtain ⟨ps, rest, p', hg, hs, hts⟩ := h.sound hx
    exact ⟨ps, rest, p', (hG _ _).mp hg, hs, hts⟩
  complete hg hs := h.complete ((hG _ _).mpr hg) hs

theorem pure (a : α) : Parses t (pure a) erase (fun ps b => ps = [] ∧ b = erase a) where
  sound {p ls a' ts} hx := by
    obtain ⟨ha, rfl⟩ := Prod.mk.inj hx
    cases ha
    exact ⟨[], ls, p, ⟨rfl, rfl⟩, .nil, rfl⟩
  complete {p ls ps b rest} hg hs := by
    obtain ⟨rfl, rfl⟩ := hg
    rw [spells_nil_iff.mp hs]
    exact ⟨a, p, rfl, rfl⟩

theorem throw (fault : Fault) : Parses t (throw fault) erase (fun _ _ => False) where
  sound hx := by cases (Prod.mk.inj hx).1
  complete hg := hg.elim

/-- **A sequence of readers parses the words of both, one behind the other.** -/
theorem bind {f : α → TokenReader (List Token) γ} {erase' : γ → δ}
    {M : β → List Symbol → δ → Prop} (hx : Parses t x erase G)
    (hf : ∀ a, Parses t (f a) erase' (M (erase a))) :
    Parses t (x >>= f) erase' (fun ps d =>
      ∃ b qs rs, G qs b ∧ M b rs d ∧ ps = qs ++ rs) where
  sound {p ls c ts} h := by
    rw [TokenReader.runOn_bind] at h
    cases hr : x.runOn (tokensOver t p ls) with
    | mk answer us =>
      rw [hr] at h
      cases answer with
      | error fault => cases (Prod.mk.inj h).1
      | ok a =>
        obtain ⟨qs, ms, q, hG, hs, rfl⟩ := hx.sound hr
        obtain ⟨rs, rest, p', hM, hs', rfl⟩ := (hf a).sound h
        exact ⟨qs ++ rs, rest, p', ⟨_, qs, rs, hG, hM, rfl⟩, hs.append hs', rfl⟩
  complete {p ls ps d rest} h hs := by
    obtain ⟨b, qs, rs, hG, hM, rfl⟩ := h
    obtain ⟨ms, hs1, hs2⟩ := spells_append_iff.mp hs
    obtain ⟨a, q, rfl, hr⟩ := hx.complete hG hs1
    obtain ⟨c, p', hc, hr'⟩ := (hf a).complete hM hs2
    refine ⟨c, p', hc, ?_⟩
    rw [TokenReader.runOn_bind, hr]
    exact hr'

/-- What is made of the answer is told by what the reader parses. -/
theorem map (hx : Parses t x erase G) (g : α → γ) (erase' : γ → δ) (m : β → δ)
    (hg : ∀ a, erase' (g a) = m (erase a)) :
    Parses t (x >>= fun a => Pure.pure (g a)) erase' fun ps d => ∃ b, G ps b ∧ d = m b := by
  refine (hx.bind (M := fun b ps d => ps = [] ∧ d = m b) fun a => ?_).congr fun ps d => ?_
  · exact hg a ▸ .pure (g a)
  · constructor
    · rintro ⟨b, qs, _, hG, ⟨rfl, rfl⟩, rfl⟩
      exact ⟨b, by rwa [List.append_nil], rfl⟩
    · rintro ⟨b, hG, rfl⟩
      exact ⟨b, ps, [], hG, ⟨rfl, rfl⟩, (List.append_nil ps).symm⟩

/-- Behind what is always spelled alike, the rest is parsed. -/
theorem behind {forget : α → Unit} {qs : List Symbol} {f : α → TokenReader (List Token) γ}
    {erase' : γ → δ} {M : List Symbol → δ → Prop} (hx : Parses t x forget fun ps _ => ps = qs)
    (hf : ∀ a, Parses t (f a) erase' M) :
    Parses t (x >>= f) erase' (fun ps d => ∃ rs, M rs d ∧ ps = qs ++ rs) := by
  refine (hx.bind (M := fun _ => M) hf).congr fun ps d => ?_
  constructor
  · rintro ⟨_, _, rs, rfl, hM, rfl⟩
    exact ⟨rs, hM, rfl⟩
  · rintro ⟨rs, hM, rfl⟩
    exact ⟨(), qs, rs, rfl, hM, rfl⟩

end Parses

/-! ## Single tokens -/

section Expect

open TokenReader (expect expectRaw fitted)

variable {t : NameTable} {α : Type} {f : TokenKind → Option α} {problem : Problem}

theorem fitted_eq_ok_iff {u? : Option Token} {a : α × Position} :
    fitted f problem u? = .ok a ↔ ∃ u, u? = some u ∧ f u.kind = some a.1 ∧ a.2 = u.position := by
  obtain ⟨a, p⟩ := a
  unfold fitted
  cases u? with
  | none => simp
  | some u =>
    cases hf : f u.kind with
    | none => simp [hf]
    | some b => simp [hf, eq_comm]

theorem next_tokensOver (p : Position) (ls : List Lexeme) :
    ∃ p', TokenSource.next (tokensOver t p ls) =
      ((tokensOver t p' (ls.dropWhile Lexeme.isBlank)).head?,
        (tokensOver t p' (ls.dropWhile Lexeme.isBlank)).tail) := by
  refine ⟨p.after ((ls.takeWhile Lexeme.isBlank).flatMap Lexeme.text), ?_⟩
  show (((tokensOver t p ls).dropWhile _).head?, ((tokensOver t p ls).dropWhile _).tail) = _
  rw [TokenStream.dropWhile_tokensOver]

/-- A lexeme that fits is read, with the white space in front of it. -/
theorem parses_expect : Parses t (expect f problem) Prod.fst fun ps a =>
    ∃ l : Lexeme, l.isBlank = false ∧ f (l.kindOver t) = some a ∧ ps = [⟨l, false⟩] where
  sound {p ls a ts} h := by
    obtain ⟨p', hnext⟩ := next_tokensOver (t := t) p ls
    rw [TokenReader.runOn_expect, hnext] at h
    obtain ⟨hok, rfl⟩ := Prod.mk.inj h
    obtain ⟨u, hu, hf, -⟩ := fitted_eq_ok_iff.mp hok
    have hblank := Lexeme.isBlank_of_mem_takeWhile ls
    have hls := List.takeWhile_append_dropWhile (p := Lexeme.isBlank) (l := ls)
    have hnot := List.head?_dropWhile_not Lexeme.isBlank ls
    cases hd : ls.dropWhile Lexeme.isBlank with
    | nil =>
      rw [hd] at hu
      cases hu
    | cons l ms =>
      rw [hd] at hu hls hnot
      cases hu
      refine ⟨[⟨l, false⟩], ms, p'.after l.text, ⟨l, by simpa using hnot, hf, rfl⟩, ?_, rfl⟩
      rw [← hls]
      exact .spaced hblank .nil
  complete {p ls ps b rest} hg hs := by
    obtain ⟨l, hl, hf, rfl⟩ := hg
    cases hs with
    | @spaced _ _ bs _ _ hb h =>
      rw [← spells_nil_iff.mp h]
      obtain ⟨p', hnext⟩ := next_tokensOver (t := t) p (bs ++ l :: rest)
      rw [List.dropWhile_append_of_pos hb, List.dropWhile_cons_of_neg (by simp [hl])] at hnext
      refine ⟨(b, p'), p'.after l.text, rfl, ?_⟩
      rw [TokenReader.runOn_expect, hnext]
      exact Prod.ext (fitted_eq_ok_iff.mpr ⟨_, rfl, hf, rfl⟩) rfl

/-- A lexeme that fits is read without white space in front of it. -/
theorem parses_expectRaw : Parses t (expectRaw f problem) Prod.fst fun ps a =>
    ∃ l : Lexeme, f (l.kindOver t) = some a ∧ ps = [⟨l, true⟩] where
  sound {p ls a ts} h := by
    rw [TokenReader.runOn_expectRaw] at h
    obtain ⟨hok, rfl⟩ := Prod.mk.inj h
    obtain ⟨u, hu, hf, -⟩ := fitted_eq_ok_iff.mp hok
    cases ls with
    | nil => cases hu
    | cons l ms =>
      cases hu
      exact ⟨[⟨l, true⟩], ms, p.after l.text, ⟨l, hf, rfl⟩, .glued .nil, rfl⟩
  complete {p ls ps b rest} hg hs := by
    obtain ⟨l, hf, rfl⟩ := hg
    cases hs with
    | glued h =>
      rw [← spells_nil_iff.mp h]
      refine ⟨(b, p), p.after l.text, rfl, ?_⟩
      rw [TokenReader.runOn_expectRaw]
      exact Prod.ext (fitted_eq_ok_iff.mpr ⟨_, rfl, hf, rfl⟩) rfl

end Expect

/-! ## Kinds of lexemes -/

/-- A text with its identifier over a table. -/
def NameTable.word (t : NameTable) (text : String) : Word := ⟨t.idOf text, text⟩

section Kinds

variable {t : NameTable} {l : Lexeme} {w : Word}

theorem wordOver_eq (t : NameTable) (text : List Char) :
    Lexeme.wordOver t text = t.word (String.ofList text) := rfl

/-- The words among the kinds are those of words and numerals. -/
theorem word?_kindOver_iff : (l.kindOver t).word? = some w ↔
    ∃ s : String, w = t.word s ∧ (l = .word s.toList ∨ l = .numeral s.toList) := by
  constructor
  · intro h
    cases l with
    | word text =>
      refine ⟨String.ofList text, ?_, .inl (by rw [String.toList_ofList])⟩
      have hw : (TokenKind.ofWord (Lexeme.wordOver t text)
          (.ofText (String.ofList text))).word? = some w := h
      rw [Lexeme.ofWord_word?] at hw
      exact (Option.some.inj hw).symm
    | numeral text =>
      exact ⟨String.ofList text, (Option.some.inj h).symm,
        .inr (by rw [String.toList_ofList])⟩
    | mark c =>
      rw [show (Lexeme.kindOver t (.mark c)).word? = none from Lexeme.ofMark_word? c] at h
      cases h
    | blank text => cases h
    | arrow => cases h
  · rintro ⟨s, rfl, rfl | rfl⟩
    · show (TokenKind.ofWord (Lexeme.wordOver t s.toList) _).word? = _
      rw [wordOver_eq, String.ofList_toList, Lexeme.ofWord_word?]
    · show some (Lexeme.wordOver t s.toList) = _
      rw [wordOver_eq, String.ofList_toList]

theorem kindOver_word (t : NameTable) (s : String) :
    Lexeme.kindOver t (.word s.toList) = .ofWord (t.word s) (.ofText s) := by
  show TokenKind.ofWord (Lexeme.wordOver t s.toList) (.ofText (String.ofList s.toList)) = _
  rw [wordOver_eq, String.ofList_toList]

theorem kindOver_numeral (t : NameTable) (s : String) :
    Lexeme.kindOver t (.numeral s.toList) = .number (t.word s) := by
  show TokenKind.number (Lexeme.wordOver t s.toList) = _
  rw [wordOver_eq, String.ofList_toList]

theorem TokenKind.ofWord_injective (w : Word) : Function.Injective (TokenKind.ofWord w) := by
  intro c c' h
  cases c <;> cases c' <;> cases h <;> rfl

/-- **A token of a class of words is read off a word of this class.** -/
theorem kindOver_eq_ofWord_iff {c : WordClass} : l.kindOver t = .ofWord w c ↔
    ∃ s : String, WordClass.ofText s = c ∧ w = t.word s ∧ l = .word s.toList := by
  constructor
  · intro h
    obtain ⟨s, rfl, rfl | rfl⟩ := word?_kindOver_iff.mp (h ▸ Lexeme.ofWord_word? w c)
    · rw [kindOver_word] at h
      exact ⟨s, TokenKind.ofWord_injective _ h, rfl, rfl⟩
    · rw [kindOver_numeral] at h
      cases c <;> cases h
  · rintro ⟨s, rfl, rfl, rfl⟩
    exact kindOver_word t s

theorem name?_kindOver_iff : (l.kindOver t).name? = some w ↔
    ∃ name : String, name ∉ Vocabulary.words ∧ w = t.word name ∧ l = .word name.toList := by
  rw [TokenKind.name?_eq_some_iff]
  simp only [← Vocabulary.ofText_eq_name_iff]
  exact kindOver_eq_ofWord_iff (c := .name)

theorem pin?_kindOver_iff : (l.kindOver t).pin? = some w ↔
    ∃ pin : String, pin ∈ Pin.words ∧ w = t.word pin ∧ l = .word pin.toList := by
  rw [TokenKind.pin?_eq_some_iff]
  simp only [← Vocabulary.ofText_eq_pin_iff]
  exact kindOver_eq_ofWord_iff (c := .pin)

theorem number?_kindOver_iff : (l.kindOver t).number? = some w ↔
    ∃ digits : String, w = t.word digits ∧ l = .numeral digits.toList := by
  rw [TokenKind.number?_eq_some_iff]
  constructor
  · intro h
    obtain ⟨s, rfl, rfl | rfl⟩ := word?_kindOver_iff.mp (show (l.kindOver t).word? = some w by
      rw [h]
      rfl)
    · rw [kindOver_word] at h
      cases hc : WordClass.ofText s <;> rw [hc] at h <;> cases h
    · exact ⟨s, rfl, rfl⟩
  · rintro ⟨digits, rfl, rfl⟩
    exact kindOver_numeral t digits

theorem eq_word_of_kindOver_keyword {k : Keyword} (h : l.kindOver t = .keyword k w) :
    l = .word k.word.toList := by
  obtain ⟨s, hs, -, rfl⟩ := (kindOver_eq_ofWord_iff (c := .keyword k)).mp h
  rw [Vocabulary.ofText_eq_keyword_iff.mp hs]

theorem only_kindOver_iff {k : TokenKind} {sign : Lexeme} (hk : k.sign? = some sign)
    {u : Unit} : TokenKind.only k (l.kindOver t) = some u ↔ l = sign := by
  unfold TokenKind.only
  rw [← Lexeme.kindOver_eq_iff (t := t) hk]
  split <;> simp [*]

end Kinds

/-! ## Signs -/

section Signs

open TokenReader (expect expectRaw)

variable {t : NameTable}

theorem parses_sign {k : TokenKind} {sign : Lexeme} (hk : k.sign? = some sign)
    (problem : Problem) :
    Parses t (expect (TokenKind.only k) problem) Prod.fst fun ps _ => ps = [⟨sign, false⟩] := by
  refine parses_expect.congr fun ps b => ?_
  simp only [only_kindOver_iff hk]
  constructor
  · rintro ⟨l, -, rfl, rfl⟩
    rfl
  · rintro rfl
    refine ⟨sign, ?_, rfl, rfl⟩
    cases k <;> cases hk <;> rfl

theorem parses_signRaw {k : TokenKind} {sign : Lexeme} (hk : k.sign? = some sign)
    (problem : Problem) :
    Parses t (expectRaw (TokenKind.only k) problem) Prod.fst fun ps _ => ps = [⟨sign, true⟩] := by
  refine parses_expectRaw.congr fun ps b => ?_
  simp only [only_kindOver_iff hk]
  constructor
  · rintro ⟨l, rfl, rfl⟩
    rfl
  · rintro rfl
    exact ⟨sign, rfl, rfl⟩

end Signs

end Netlist
