import Netlist.Proofs.Layout

/-!
# Reading with and without white space

A stream is read by two calls: `next` passes over white space, `nextRaw` answers it as a token. They
share the position and the names, so they may be mixed: a raw call in front of white space answers
it and changes nothing that a skipping call would see, and any other raw call is a skipping one.

## Results

* `TokenStream.ask_cases`: what a call does.
* `TokenStream.Level.askAll`: streams that differ by white space in front are read alike.
* `TokenStream.StandsAt.leadsTo`: a stream stands in its source wherever it is read to.
* `TokenStream.interleaved_ofSource`: **mixed calls answer what skipping calls alone answer.**
-/

namespace Netlist

/-! ## The lexemes that are left -/

namespace Lexeme

variable {cs w : List Char} {l : Lexeme} {ls ms : List Lexeme}

/-- Behind some of its lexemes, a text is cut into the lexemes that are left. -/
theorem ofText_of_append (h : ofText cs = ls ++ ms) : ofText (ms.flatMap text) = ms := by
  induction ls generalizing cs with
  | nil =>
    rw [List.nil_append] at h
    rw [← h, flatMap_text_ofText]
  | cons l ls ih =>
    cases cs with
    | nil => rw [ofText] at h; cases h
    | cons c cs =>
      rw [ofText] at h
      exact ih (List.cons.inj h).2

theorem isBlank_iff : l.isBlank = true ↔ ∃ w, l = .blank w := by
  cases l <;> simp [isBlank]

/-- A text starts with a blank lexeme iff its first character is blank or starts a comment. -/
theorem head_isBlank_iff :
    (∃ l ∈ (ofText cs).head?, l.isBlank = true) ↔
      ∃ c ∈ cs.head?, Text.isBlank c = true ∨ c = '#' := by
  cases cs with
  | nil => simp [ofText]
  | cons c cs => simp [ofText, isBlank_first]

theorem blankRun_eq_nil_iff :
    blankRun false cs = [] ↔ ¬∃ c ∈ cs.head?, Text.isBlank c = true ∨ c = '#' := by
  cases cs with
  | nil => simp [blankRun]
  | cons c cs =>
    unfold blankRun
    by_cases hc : c = '#'
    · simp [hc]
    · by_cases hb : Text.isBlank c = true <;> simp [hc, hb]

theorem first_eq_blank {c : Char} (h : first c cs = .blank w) : w = blankRun false (c :: cs) := by
  have hc : (Text.isBlank c || c = '#') = true := (isBlank_first c cs).mp (by rw [h]; rfl)
  unfold first at h
  rw [if_pos hc] at h
  exact (Lexeme.blank.inj h).symm

/-- No blank lexeme stands behind a blank lexeme. -/
theorem isBlank_of_cons_cons (h : ofText cs = .blank w :: l :: ls) : l.isBlank = false := by
  have hcs : w ++ (l :: ls).flatMap text = cs := by
    rw [← flatMap_text_ofText cs, h]
    rfl
  have hw : w = blankRun false cs := by
    cases cs with
    | nil => rw [ofText] at h; cases h
    | cons c cs =>
      rw [ofText] at h
      exact first_eq_blank (List.cons.inj h).1
  have hrun : Longest IsSpace w (w ++ (l :: ls).flatMap text) := by
    rw [hcs, hw]
    exact longest_blankRun cs
  have hnone := blankRun_behind hrun
  have hrest := ofText_of_append (show ofText cs = [.blank w] ++ l :: ls from h)
  rw [blankRun_eq_nil_iff, ← head_isBlank_iff, hrest] at hnone
  exact Bool.eq_false_iff.mpr fun hl => hnone ⟨l, rfl, hl⟩

end Lexeme

namespace TokenStream

variable {s s' : TokenStream} {l : Lexeme} {ls : List Lexeme}

/-! ## One call -/

theorem nextRaw_of_cons (h : s.pending = l :: ls) :
    s.nextRaw = (some (s.read l).1, { (s.read l).2 with pending := ls }) := by
  unfold nextRaw
  rw [h]

theorem readsAs_read (s : TokenStream) (l : Lexeme) : l.ReadsAs (s.read l).1.kind := by
  cases l <;> constructor

/-- The two ways to ask for the next token. -/
inductive ReadMode
  /-- Passes over white space. -/
  | skipping
  /-- Answers white space as a token. -/
  | raw
deriving DecidableEq

/-- What a call answers: the kind of the token, or none at the end of the source, and where it
is. -/
structure Answer where
  kind? : Option TokenKind
  position : Position

/-- Whether white space was answered. -/
def Answer.isSpace (a : Answer) : Bool := a.kind? = some .space

/-- Asks for the next token. -/
def ask (s : TokenStream) (mode : ReadMode) : Answer × TokenStream :=
  let (t, s) := match mode with
    | .skipping => s.next
    | .raw => s.nextRaw
  (⟨t.map Token.kind, (t.map Token.position).getD s.position⟩, s)

/-- Asks for tokens one after the other. -/
def askAll (s : TokenStream) : List ReadMode → List Answer × TokenStream
  | [] => ([], s)
  | mode :: modes =>
    let (a, s) := s.ask mode
    let (as, s) := s.askAll modes
    (a :: as, s)

theorem isSpace_ask_raw_iff :
    (s.ask .raw).1.isSpace = true ↔ ∃ l ∈ s.pending.head?, l.isBlank = true := by
  unfold ask Answer.isSpace
  cases hp : s.pending with
  | nil => simp [nextRaw_nil hp]
  | cons l ls => simp [nextRaw_of_cons hp, (readsAs_read s l).eq_space_iff]

/-! ## White space in front -/

theorem skipBlank_of_not_blank (h : ∀ l ∈ s.pending.head?, l.isBlank = false) :
    s.skipBlank = s :=
  (skipBlank_eq (List.nil_append _).symm (fun _ hl => absurd hl List.not_mem_nil) h).trans
    s.behind_nil

theorem isBlank_head_skipBlank (hl : l ∈ s.skipBlank.pending.head?) : l.isBlank = false := by
  have h := List.head?_dropWhile_not Lexeme.isBlank s.pending
  rw [show (s.pending.dropWhile Lexeme.isBlank).head? = some l from hl] at h
  exact h

/-- A skipping call is a raw one behind the white space. -/
theorem ask_skipping (s : TokenStream) : s.ask .skipping = s.skipBlank.ask .raw := rfl

/-- Streams that differ by white space in front. -/
def Level (s s' : TokenStream) : Prop := s.skipBlank = s'.skipBlank

theorem names_skipBlank (s : TokenStream) : s.skipBlank.names = s.names := rfl

theorem Level.names (h : s.Level s') : s.names = s'.names := by
  unfold Level at h
  rw [← names_skipBlank, h, names_skipBlank]

theorem Level.ask_skipping (h : s.Level s') : s.ask .skipping = s'.ask .skipping := by
  unfold Level at h
  rw [TokenStream.ask_skipping, TokenStream.ask_skipping, h]

/-- A raw call in front of white space passes over it, and changes nothing else. -/
theorem ask_raw_of_blank {w : List Char} (hp : s.pending = .blank w :: ls) :
    s.ask .raw =
      (⟨some .space, s.position⟩, { s with pending := ls, position := s.position.after w }) := by
  unfold ask
  rw [nextRaw_of_cons hp]
  rfl

theorem level_of_blank {w : List Char} (hp : s.pending = .blank w :: ls) :
    (s.ask .raw).2.Level s := by
  have hblank : (Lexeme.blank w).isBlank = true := rfl
  unfold Level skipBlank
  simp only [ask_raw_of_blank hp, hp, List.takeWhile_cons_of_pos hblank,
    List.dropWhile_cons_of_pos hblank, List.flatMap_cons, Position.after_append, Lexeme.text]

/-- **What a call does**: a raw call answers white space and leaves a stream that is level with the
one in front, and every other call is a skipping one and answers none. -/
theorem ask_cases (s : TokenStream) (mode : ReadMode) :
    (mode = .raw ∧ (s.ask mode).1.isSpace = true ∧ (s.ask mode).2.Level s) ∨
      ((s.ask mode).1.isSpace = false ∧ s.ask mode = s.ask .skipping) := by
  have hskipping : (s.ask .skipping).1.isSpace = false := by
    rw [Bool.eq_false_iff, Ne, ask_skipping, isSpace_ask_raw_iff]
    rintro ⟨l, hl, hblank⟩
    rw [isBlank_head_skipBlank hl] at hblank
    cases hblank
  cases mode with
  | skipping => exact .inr ⟨hskipping, rfl⟩
  | raw =>
    by_cases hspace : (s.ask .raw).1.isSpace = true
    · obtain ⟨l, hl, hblank⟩ := isSpace_ask_raw_iff.mp hspace
      obtain ⟨w, rfl⟩ := Lexeme.isBlank_iff.mp hblank
      obtain ⟨ls, hp⟩ := List.head?_eq_some_iff.mp hl
      exact .inl ⟨rfl, hspace, level_of_blank hp⟩
    · have hfront : s.skipBlank = s := skipBlank_of_not_blank fun l hl =>
        Bool.eq_false_iff.mpr fun hblank => hspace (isSpace_ask_raw_iff.mpr ⟨l, hl, hblank⟩)
      exact .inr ⟨Bool.eq_false_iff.mpr hspace, by rw [ask_skipping, hfront]⟩

/-- **Mixed calls answer, white space apart, what skipping calls answer**, and leave a stream that
is level with theirs. -/
theorem Level.askAll (h : s.Level s') (modes : List ReadMode) :
    let found := (s.askAll modes).1.filter (!·.isSpace)
    let alone := s'.askAll (List.replicate found.length .skipping)
    found = alone.1 ∧ (s.askAll modes).2.Level alone.2 := by
  induction modes generalizing s s' with
  | nil => exact ⟨rfl, h⟩
  | cons mode modes ih =>
    rcases s.ask_cases mode with ⟨-, hspace, hlevel⟩ | ⟨hspace, hask⟩
    · have hrest := ih (show (s.ask mode).2.Level s' from Eq.trans hlevel h)
      simp only [TokenStream.askAll, List.filter_cons, hspace, Bool.not_true, Bool.false_eq_true,
        if_false]
      exact hrest
    · rw [h.ask_skipping] at hask
      have hrest := ih (show (s.ask mode).2.Level (s'.ask .skipping).2 by rw [hask]; rfl)
      simp only [TokenStream.askAll, List.filter_cons, hspace, Bool.not_false, if_true,
        List.length_cons, List.replicate_succ]
      exact ⟨by rw [← hrest.1, hask], hrest.2⟩

/-! ## What is left of a source -/

/-- A stream in the middle of a source: `rest` is still to be cut into lexemes, behind `done`. -/
structure StandsAt (s : TokenStream) (done rest : List Char) : Prop where
  pending : s.pending = Lexeme.ofText rest
  position : s.position = .ofPrefix done

/-- Whether a stream comes to another by passing over lexemes. -/
def LeadsTo (s s' : TokenStream) : Prop :=
  ∃ ls, s.pending = ls ++ s'.pending ∧ s'.position = s.position.after (ls.flatMap Lexeme.text)

theorem LeadsTo.trans {s'' : TokenStream} (h : s.LeadsTo s') (h' : s'.LeadsTo s'') :
    s.LeadsTo s'' := by
  obtain ⟨ls, hp, hq⟩ := h
  obtain ⟨ms, hp', hq'⟩ := h'
  refine ⟨ls ++ ms, by rw [hp, hp', List.append_assoc], ?_⟩
  rw [hq', hq, List.flatMap_append, Position.after_append]

theorem leadsTo_skipBlank (s : TokenStream) : s.LeadsTo s.skipBlank :=
  ⟨s.pending.takeWhile Lexeme.isBlank, List.takeWhile_append_dropWhile.symm, rfl⟩

theorem leadsTo_nextRaw (s : TokenStream) : s.LeadsTo s.nextRaw.2 := by
  cases hp : s.pending with
  | nil =>
    rw [nextRaw_nil hp]
    exact ⟨[], rfl, rfl⟩
  | cons l ls =>
    rw [nextRaw_of_cons hp]
    exact ⟨[l], hp, by rw [List.flatMap_singleton]; rfl⟩

theorem leadsTo_ask (s : TokenStream) (mode : ReadMode) : s.LeadsTo (s.ask mode).2 := by
  cases mode with
  | skipping => exact s.leadsTo_skipBlank.trans s.skipBlank.leadsTo_nextRaw
  | raw => exact s.leadsTo_nextRaw

theorem leadsTo_askAll (s : TokenStream) (modes : List ReadMode) :
    s.LeadsTo (s.askAll modes).2 := by
  induction modes generalizing s with
  | nil => exact ⟨[], rfl, rfl⟩
  | cons mode modes ih => exact (s.leadsTo_ask mode).trans (ih _)

theorem standsAt_ofSource (source : String) (names : NameTable) :
    (ofSource source names).StandsAt [] source.toList :=
  ⟨pending_ofLexemes _ _, position_ofLexemes _ _⟩

variable {done rest : List Char}

/-- **A stream that passes over lexemes still stands in its source**, behind a longer text. -/
theorem StandsAt.leadsTo (h : s.StandsAt done rest) (hs : s.LeadsTo s') :
    ∃ passed rest', rest = passed ++ rest' ∧ s'.StandsAt (done ++ passed) rest' := by
  obtain ⟨ls, hp, hq⟩ := hs
  rw [h.pending] at hp
  refine ⟨ls.flatMap Lexeme.text, s'.pending.flatMap Lexeme.text, ?_, ?_, ?_⟩
  · rw [← List.flatMap_append, ← hp, Lexeme.flatMap_text_ofText]
  · exact (Lexeme.ofText_of_append hp).symm
  · rw [hq, h.position, ← Position.after_start, ← Position.after_append, Position.after_start]

/-- White space is answered by raw calls in front of it. -/
theorem StandsAt.isSpace_ask_iff (h : s.StandsAt done rest) (mode : ReadMode) :
    (s.ask mode).1.isSpace = true ↔
      mode = .raw ∧ ∃ c ∈ rest.head?, Text.isBlank c = true ∨ c = '#' := by
  cases mode with
  | skipping =>
    rcases s.ask_cases .skipping with ⟨hmode, -, -⟩ | ⟨hspace, -⟩
    · cases hmode
    · simp [hspace]
  | raw => rw [isSpace_ask_raw_iff, h.pending, Lexeme.head_isBlank_iff, and_iff_right rfl]

/-- White space is never answered twice in a row. -/
theorem StandsAt.isSpace_ask_ask (h : s.StandsAt done rest)
    (hspace : (s.ask .raw).1.isSpace = true) :
    ((s.ask .raw).2.ask .raw).1.isSpace = false := by
  obtain ⟨l, hl, hblank⟩ := isSpace_ask_raw_iff.mp hspace
  obtain ⟨w, rfl⟩ := Lexeme.isBlank_iff.mp hblank
  obtain ⟨ls, hp⟩ := List.head?_eq_some_iff.mp hl
  rw [Bool.eq_false_iff, Ne, isSpace_ask_raw_iff, ask_raw_of_blank hp]
  rintro ⟨m, hm, hblank'⟩
  obtain ⟨ms, rfl⟩ := List.head?_eq_some_iff.mp hm
  rw [Lexeme.isBlank_of_cons_cons (h.pending.symm.trans hp)] at hblank'
  cases hblank'

/-- **Mixed calls answer what skipping calls alone answer.** White space apart, the answers to any
calls on a source are those of as many skipping calls, and the names behind them are the same. The
stream behind them stands in the source; there, white space is answered by a raw call if the next
character is blank or starts a comment, by no other call, and never twice in a row. -/
theorem interleaved_ofSource (source : String) (names : NameTable) (modes : List ReadMode) :
    let s := ofSource source names
    let mixed := s.askAll modes
    let found := mixed.1.filter (!·.isSpace)
    let alone := s.askAll (List.replicate found.length .skipping)
    found = alone.1 ∧ mixed.2.names = alone.2.names ∧
      (∃ done rest, source.toList = done ++ rest ∧ mixed.2.StandsAt done rest ∧
        ∀ mode, (mixed.2.ask mode).1.isSpace = true ↔
          mode = .raw ∧ ∃ c ∈ rest.head?, Text.isBlank c = true ∨ c = '#') ∧
      ((mixed.2.ask .raw).1.isSpace = true →
        ((mixed.2.ask .raw).2.ask .raw).1.isSpace = false) := by
  intro s mixed found alone
  obtain ⟨hfound, hlevel⟩ := Level.askAll (show s.Level s from rfl) modes
  obtain ⟨done, rest, hsource, hstands⟩ :=
    (standsAt_ofSource source names).leadsTo (s.leadsTo_askAll modes)
  exact ⟨hfound, hlevel.names, ⟨done, rest, hsource, hstands, hstands.isSpace_ask_iff⟩,
    hstands.isSpace_ask_ask⟩

end TokenStream

end Netlist
