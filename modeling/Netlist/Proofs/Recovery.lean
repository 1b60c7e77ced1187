import Netlist.Proofs.Lockstep
import Netlist.Proofs.Passage
import Netlist.Reading.Turn

/-!
# Recovery from errors

A turn of the parser (`Reading.turn?`) looks at one token at a time and knows no segments. Wherever
a statement breaks off, the skipping ends where its segment ends, so that every turn takes in one
segment, and reading segment by segment is the loop of the parser.

## Results

* `Cursor.skipLine_of_inside`: skipping from anywhere in a segment ends behind it.
* `Reading.turn?_eq`: **a turn of the parser takes in a segment.**
* `Reading.Passes.continues`: behind the segments passed, the loop takes the next segment in a turn.
-/

namespace Netlist

/-! ## Where a cursor is in a segment -/

namespace Lexeme

theorem splitStop_append_of_blank {bs : List Lexeme} (h : ∀ b ∈ bs, b.isBlank = true)
    (ls : List Lexeme) :
    splitStop (bs ++ ls) = (bs ++ (splitStop ls).1, (splitStop ls).2) := by
  induction bs with
  | nil => rfl
  | cons b bs ih =>
    have hb : b ≠ .mark ';' := by
      rintro rfl
      exact Bool.false_ne_true (h _ List.mem_cons_self)
    rw [List.cons_append, splitStop, if_neg hb,
      ih fun b hb => h b (List.mem_cons_of_mem _ hb)]
    rfl

theorem splitStop_of_blank {bs : List Lexeme} (h : ∀ b ∈ bs, b.isBlank = true) :
    splitStop bs = (bs, []) := by
  have hsplit := splitStop_append_of_blank h []
  rw [List.append_nil] at hsplit
  rw [hsplit]
  exact Prod.ext (List.append_nil bs) rfl

theorem kind_of_mem_tokensOver {t : NameTable} {p : Position} {bs : List Lexeme}
    (h : ∀ b ∈ bs, b.isBlank = true) {u : Token} (hu : u ∈ tokensOver t p bs) :
    u.kind = .space := by
  induction bs generalizing p with
  | nil => exact absurd hu (by simp)
  | cons b bs ih =>
    rcases List.mem_cons.mp hu with rfl | hu
    · exact kindOver_eq_space_iff.mpr (h b List.mem_cons_self)
    · exact ih (fun b hb => h b (List.mem_cons_of_mem _ hb)) hu

end Lexeme

namespace TokenStream

variable {t : NameTable} {target s : TokenStream} {ts : List Token}

/-- `ts` are the tokens that a stream has before the end of a segment; `target` is the stream
behind the segment. -/
structure Within (t : NameTable) (target s : TokenStream) (ts : List Token) : Prop where
  sound : s.Sound
  names : s.allNames ≤ t
  tokens : ts = Lexeme.tokensOver t s.position (Lexeme.splitStop s.pending).1
  behind : s.behind (Lexeme.splitStop s.pending).1 (Lexeme.splitStop s.pending).2 = target

theorem Sound.next (h : s.Sound) : s.next.2.Sound := by
  cases hd : s.pending.dropWhile Lexeme.isBlank with
  | nil =>
    rw [next_of_blank hd]
    exact h.behind _ _
  | cons l ls =>
    rw [next_of_dropWhile h NameTable.le_rfl hd]
    exact h.behind _ _

theorem within_throughStop (h : s.Sound) (ht : s.allNames ≤ t) :
    Within t s.throughStop.2 s s.throughStop.1 := by
  rw [throughStop_eq h ht]
  exact ⟨h, ht, rfl, rfl⟩

/-- Reading one token more, and the white space in front of it: either the segment goes on, or the
token was its `;`. -/
theorem Within.read {bs ls : List Lexeme} {l : Lexeme} (h : Within t target s ts)
    (hbs : ∀ b ∈ bs, b.isBlank = true) (hp : s.pending = bs ++ l :: ls) :
    ∃ ts', ts = Lexeme.tokensOver t s.position bs ++
        ⟨l.kindOver t, s.position.after (bs.flatMap Lexeme.text)⟩ :: ts' ∧
      (l = .mark ';' → ts' = [] ∧ s.behind (bs ++ [l]) ls = target) ∧
      (l ≠ .mark ';' → Within t target (s.behind (bs ++ [l]) ls) ts') := by
  have hp' : s.pending = (bs ++ [l]) ++ ls := by rw [hp, List.append_assoc]; rfl
  have hsplit : Lexeme.splitStop s.pending =
      (bs ++ (Lexeme.splitStop (l :: ls)).1, (Lexeme.splitStop (l :: ls)).2) := by
    rw [hp, Lexeme.splitStop_append_of_blank hbs]
  have htokens := h.tokens
  have hbehind := h.behind
  rw [hsplit, Lexeme.tokensOver_append] at htokens
  rw [hsplit] at hbehind
  by_cases hl : l = .mark ';'
  · have hstop : Lexeme.splitStop (l :: ls) = ([l], ls) := by rw [Lexeme.splitStop, if_pos hl]
    rw [hstop] at htokens hbehind
    exact ⟨[], htokens, fun _ => ⟨rfl, hbehind⟩, fun hn => absurd hl hn⟩
  · have hgo : Lexeme.splitStop (l :: ls) =
        (l :: (Lexeme.splitStop ls).1, (Lexeme.splitStop ls).2) := by
      rw [Lexeme.splitStop, if_neg hl]
    rw [hgo] at htokens hbehind
    refine ⟨_, htokens, fun he => absurd he hl, fun _ => ?_⟩
    refine ⟨h.sound.behind _ _, by rw [allNames_behind hp']; exact h.names, ?_, ?_⟩
    · simp only [TokenStream.behind, List.flatMap_append, List.flatMap_singleton,
        Position.after_append]
    · have happ : bs ++ l :: (Lexeme.splitStop ls).1 = (bs ++ [l]) ++ (Lexeme.splitStop ls).1 := by
        rw [List.append_assoc, List.singleton_append]
      rw [← hbehind, happ]
      exact behind_behind s (bs ++ [l]) _ ls _

theorem Within.next_none (h : Within t target s ts) (hp : ∀ l ∈ s.pending, l.isBlank = true) :
    s.next = (none, target) ∧ ts = Lexeme.tokensOver t s.position s.pending := by
  have hbehind := h.behind
  have htokens := h.tokens
  rw [Lexeme.splitStop_of_blank hp] at hbehind htokens
  exact ⟨by rw [TokenStream.next_none hp, ← hbehind], htokens⟩

end TokenStream

theorem TokenKind.Like.refl (k : TokenKind) : k.Like Eq k := by
  cases k with
  | heading s w => exact .heading rfl
  | keyword k w => exact .keyword rfl
  | pin w => exact .pin rfl
  | name w => exact .name rfl
  | number w => exact .number rfl
  | _ => exact .plain rfl

theorem Statement.Like.eq {st st' : Statement} (h : st.Like Eq st') : st = st' := by
  have hmention : ∀ {m m' : OutputMention}, m.Like Eq m' → m = m' := fun {m m'} h => by
    obtain ⟨device, pin, position⟩ := m
    obtain ⟨device', pin', position'⟩ := m'
    obtain ⟨rfl, hpin, rfl⟩ := h
    cases hpin with
    | none => rfl
    | some hpin => cases hpin; rfl
  cases h with
  | @declaration s s' h =>
    obtain ⟨kind, name, namePosition, qualifier⟩ := s
    obtain ⟨rfl, rfl, rfl, rfl⟩ := h
    rfl
  | @connection s s' h =>
    obtain ⟨source, device, pin, pinPosition⟩ := s
    obtain ⟨source', device', pin', pinPosition'⟩ := s'
    obtain ⟨hsource, rfl, rfl, rfl⟩ := h
    cases hmention hsource
    rfl
  | monitor h => rw [hmention h]

theorem Circuit.ReadAlike.refl (c : Circuit) : c.ReadAlike Eq c where
  device {w w'} h := by
    rw [h]
    cases c.device? w'.id with
    | none => exact .none
    | some d => exact .some ⟨rfl, fun h => by rw [h]⟩
  output h := by rw [h]

namespace Cursor

open TokenStream (Within)

variable {t : NameTable} {target : TokenStream} {c : Cursor} {ts : List Token}

/-- A cursor inside of a segment, with the tokens that are left of it. -/
structure Inside (t : NameTable) (target : TokenStream) (c : Cursor) (ts : List Token) : Prop where
  going : ¬c.atStop
  within : Within t target c.stream ts

/-- A cursor at the last token of a segment. -/
structure Done (target : TokenStream) (c : Cursor) : Prop where
  stop : c.atStop
  behind : c.stream = target

theorem nextAlike_read {s : TokenStream} (h : Within t target s ts) {bs ls : List Lexeme}
    {l : Lexeme} (hbs : ∀ b ∈ bs, b.isBlank = true) (hp : s.pending = bs ++ l :: ls)
    {ts' : List Token} (hts : ∀ token rest, token.kind = l.kindOver t →
      ts = Lexeme.tokensOver t s.position bs ++ token :: rest → ts' = token :: rest) :
    NextAlike Eq (Inside t target) (fun c _ => Done target c) True
      (some ⟨l.kindOver t, s.position.after (bs.flatMap Lexeme.text)⟩,
        (⟨some ⟨l.kindOver t, s.position.after (bs.flatMap Lexeme.text)⟩,
          s.behind (bs ++ [l]) ls⟩ : Cursor))
      (ts'.head?, ts'.tail) := by
  obtain ⟨rest, hrest, hstop, hgo⟩ := h.read hbs hp
  rw [hts _ rest rfl hrest]
  by_cases hl : l = .mark ';'
  · subst hl
    exact .stop ⟨fun u hu => by rw [← Option.some.inj hu]; rfl, (hstop rfl).2⟩
  · have hk : l.kindOver t ≠ .semicolon := mt Lexeme.kindOver_eq_semicolon_iff.mp hl
    exact .token ⟨TokenKind.Like.refl _, rfl⟩ hk ⟨fun hs => hk (hs _ rfl), hgo hl⟩

/-- A cursor and the tokens of its segment, in lockstep. -/
def lockstep (t : NameTable) (target : TokenStream) : Lockstep Eq Cursor (List Token) where
  inside := Inside t target
  done c _ := Done target c
  ends := True
  text_eq h := congrArg Word.text h
  next {c ts} h := by
    show NextAlike _ _ _ _ (c.stream.next.1, Cursor.mk c.stream.next.1 c.stream.next.2)
      ((ts.dropWhile (·.kind = .space)).head?, (ts.dropWhile (·.kind = .space)).tail)
    have hblank := Lexeme.isBlank_of_mem_takeWhile c.stream.pending
    cases hd : c.stream.pending.dropWhile Lexeme.isBlank with
    | nil =>
      obtain ⟨hnext, htokens⟩ := h.within.next_none (List.dropWhile_eq_nil_iff.mp hd)
      rw [hnext, htokens, TokenStream.dropWhile_tokensOver, hd]
      exact .none trivial (Done.mk (fun u hu => by cases hu) rfl)
    | cons l ls =>
      rw [TokenStream.next_of_dropWhile h.within.sound h.within.names hd]
      have hp : c.stream.pending = c.stream.pending.takeWhile Lexeme.isBlank ++ l :: ls := by
        rw [← hd, List.takeWhile_append_dropWhile]
      have hl : l.isBlank = false := by
        have hnot := List.head?_dropWhile_not Lexeme.isBlank c.stream.pending
        rw [hd] at hnot
        simpa using hnot
      refine nextAlike_read h.within hblank hp fun token rest hk htokens => ?_
      rw [htokens, List.dropWhile_append_of_pos, List.dropWhile_cons_of_neg]
      · rw [decide_eq_true_eq, hk]
        exact Lexeme.kindOver_ne_space hl
      · intro u hu
        exact decide_eq_true (Lexeme.kind_of_mem_tokensOver hblank hu)
  nextRaw {c ts} h := by
    show NextAlike _ _ _ _ (c.stream.nextRaw.1, Cursor.mk c.stream.nextRaw.1 c.stream.nextRaw.2)
      (ts.head?, ts.tail)
    cases hp : c.stream.pending with
    | nil =>
      have hall : ∀ l ∈ c.stream.pending, l.isBlank = true := by rw [hp]; simp
      obtain ⟨hnext, htokens⟩ := h.within.next_none hall
      rw [TokenStream.next_none hall, hp] at hnext
      rw [TokenStream.nextRaw_nil hp, htokens, hp]
      refine .none trivial (Done.mk (fun u hu => by cases hu) ?_)
      rw [← (Prod.mk.inj hnext).2]
      have hnil := TokenStream.behind_nil c.stream
      rw [hp] at hnil
      exact hnil.symm
    | cons l ls =>
      rw [TokenStream.nextRaw_eq h.within.sound hp h.within.names]
      have hnil : ∀ b ∈ ([] : List Lexeme), b.isBlank = true := by simp
      exact nextAlike_read h.within hnil hp fun token rest _ htokens => htokens

theorem skipLine_of_done (h : Done target c) : c.skipLine.stream = target := by
  unfold skipLine
  rw [if_pos h.stop]
  exact h.behind

/-- Reading on in a segment stays in it, or is done with it. -/
theorem Inside.next (h : Inside t target c ts) :
    NextAlike Eq (Inside t target) (fun c _ => Done target c) True
      (c.stream.next.1, Cursor.mk c.stream.next.1 c.stream.next.2) (TokenSource.next ts) :=
  (lockstep t target).next h

/-- **Skipping from anywhere in a segment ends behind it.** -/
theorem skipLine_of_inside (h : Inside t target c ts) : c.skipLine.stream = target := by
  fun_induction skipLine c generalizing ts with
  | case1 c hs => exact absurd hs h.going
  | case2 c hs s hn =>
    have hnext := h.next
    rw [hn] at hnext
    generalize TokenSource.next ts = r at hnext
    cases hnext with
    | none _ hd => exact hd.behind
  | case3 c hs u s hn ih =>
    have hnext := h.next
    rw [hn] at hnext
    generalize TokenSource.next ts = r at hnext
    cases hnext with
    | token _ _ hi => exact ih hi
    | stop hd => exact skipLine_of_done hd

theorem skipLine_of_agree {α α' : Type} {A : α → α' → Prop} {rest : Cursor → List Token → Prop}
    {fault : Fault} {x : Except Fault α' × List Token}
    (h : (lockstep t target).Agree A rest (.error fault, c) x) :
    c.skipLine.stream = target ∧ x.1 = .error fault := by
  cases h with
  | error hb _ =>
    rcases hb with hi | hd
    · exact ⟨skipLine_of_inside hi, rfl⟩
    · exact ⟨skipLine_of_done hd, rfl⟩

end Cursor

/-! ## A turn takes in a segment -/

namespace Draft

open Cursor (lockstep Inside Done skipLine_of_agree skipLine_of_inside skipLine_of_done)

variable {t : NameTable} {target : TokenStream} {c : Cursor} {ts : List Token}

theorem turnStatement_eq (d : Draft) (k : Keyword) (position : Position)
    (h : Inside t target c ts) :
    (d.turnStatement k position c).1 =
        (match d.takeStatement k position ts with
          | .ok d => (none, d)
          | .error fault => (some fault, d)) ∧
      (d.turnStatement k position c).2.stream = target := by
  unfold turnStatement takeStatement
  by_cases ha : d.sections.active = some k.homeSection
  · rw [if_pos ha, if_pos ha]
    have hread := Lockstep.agree_read (L := lockstep t target) (.refl d.circuit) k h
    generalize (Statement.read d.circuit k).runOn c = r at hread ⊢
    generalize (Statement.read d.circuit k).runOn ts = r' at hread ⊢
    obtain ⟨answer, c'⟩ := r
    cases answer with
    | error fault =>
      obtain ⟨hstream, hanswer⟩ := skipLine_of_agree hread
      rw [hanswer]
      exact ⟨rfl, hstream⟩
    | ok st =>
      cases hread with
      | ok hlike hd =>
        cases hlike.eq
        simp only
        cases d.apply st with
        | ok d' => exact ⟨rfl, hd.behind⟩
        | error fault => exact ⟨rfl, skipLine_of_done hd⟩
  · rw [if_neg ha, if_neg ha]
    exact ⟨rfl, skipLine_of_inside h⟩

theorem turnHeading_of_colon (d : Draft) (s : Section) (position : Position) {p : Position}
    {s' : TokenStream} (h : c.stream.next = (some ⟨.colon, p⟩, s')) :
    d.turnHeading s position c = (d.enter s position, ⟨some ⟨.colon, p⟩, s'⟩) := by
  unfold turnHeading
  rw [TokenReader.runOn_expect]
  have hnext : TokenSource.next c = (some ⟨.colon, p⟩, ⟨some ⟨.colon, p⟩, s'⟩) := by
    show (c.stream.next.1, Cursor.mk c.stream.next.1 c.stream.next.2) = _
    rw [h]
  rw [hnext]
  rfl

theorem turnHeading_of_ne (d : Draft) (s : Section) (position : Position)
    (h : Inside t target c ts) (hn : ∀ p, c.stream.next.1 ≠ some ⟨.colon, p⟩) :
    (d.turnHeading s position c).1 = d.takeHeading s position ts ∧
      (d.turnHeading s position c).2.stream = target := by
  have hread : (lockstep t target).Agree _ _
      ((TokenReader.expect (TokenKind.only .colon) (.colonExpected s)).runOn c)
      ((TokenReader.expect (TokenKind.only .colon) (.colonExpected s)).runOn ts) :=
    Lockstep.agree_expect (Lockstep.fitAlike_only (k := .colon) rfl) h
  have hfitted : ∀ a, ((TokenReader.expect (TokenKind.only .colon) (.colonExpected s)).runOn c).1 ≠
      .ok a := by
    intro a
    rw [TokenReader.runOn_expect]
    show TokenReader.fitted _ _ c.stream.next.1 ≠ _
    cases hnext : c.stream.next.1 with
    | none => exact fun h => by cases h
    | some u =>
      have hk : u.kind ≠ .colon := fun hk => hn u.position (by rw [hnext, ← hk])
      simp [TokenReader.fitted, TokenKind.only, hk]
  unfold turnHeading takeHeading
  generalize (TokenReader.expect (TokenKind.only .colon) (.colonExpected s)).runOn c = r
    at hread hfitted ⊢
  obtain ⟨answer, c'⟩ := r
  cases answer with
  | ok a => exact absurd rfl (hfitted a)
  | error fault =>
    obtain ⟨hstream, hanswer⟩ := skipLine_of_agree hread
    rw [hanswer]
    exact ⟨rfl, hstream⟩

/-- What a turn does to a draft is what the segment does, and it ends behind the segment. -/
theorem turn_eq (d : Draft) (u : Token) {s : TokenStream} (h : s.Sound) :
    (d.turn u ⟨some u, s⟩).1 = d.take ⟨u, (s.segmentTail u.kind).1⟩ ∧
      (d.turn u ⟨some u, s⟩).2.stream = (s.segmentTail u.kind).2 := by
  by_cases hstop : u.kind = .semicolon
  · have hd : Done s ⟨some u, s⟩ := ⟨fun v hv => by rw [← Option.some.inj hv]; exact hstop, rfl⟩
    unfold turn take TokenStream.segmentTail
    simp only [hstop]
    exact ⟨trivial, skipLine_of_done hd⟩
  · have hin : Inside s.allNames s.throughStop.2 ⟨some u, s⟩ s.throughStop.1 :=
      ⟨fun hs => hstop (hs _ rfl), TokenStream.within_throughStop h NameTable.le_rfl⟩
    unfold turn take
    cases hk : u.kind with
    | heading sec w =>
      unfold TokenStream.segmentTail
      simp only
      split
      · rename_i p s' hn
        rw [turnHeading_of_colon d sec u.position (c := ⟨some u, s⟩) hn]
        exact ⟨rfl, rfl⟩
      · rename_i hn
        refine turnHeading_of_ne d sec u.position hin fun p hp => ?_
        exact hn p s.next.2 (Prod.ext hp rfl)
    | keyword k w => exact turnStatement_eq d k u.position hin
    | semicolon => exact absurd hk hstop
    | _ => exact ⟨rfl, skipLine_of_inside hin⟩

end Draft

namespace Reading

/-- **A turn of the parser takes in a segment.** -/
theorem turn?_eq {r : Reading} (h : r.stream.Sound) :
    r.turn? = r.stream.segment?.map fun (g, stream) => r.takeSegment g stream := by
  have hs := h.next
  unfold turn? TokenStream.segment?
  generalize r.stream.next = next at hs ⊢
  obtain ⟨u?, s⟩ := next
  cases u? with
  | none => rfl
  | some u =>
    obtain ⟨htaken, hstream⟩ := r.draft.turn_eq u (s := s) hs
    simp only [Option.map_some, takeSegment, ← htaken, ← hstream]

/-- The loop of the parser, started at `first`, comes to `r` and takes one turn from there to `r'`.
What it answers in the end depends on `r'` alone. -/
structure Continues (first r r' : Reading) : Prop where
  turn : r.turn? = some r'
  /-- At its limit on errors the loop stops, and below the limit it takes the next turn. -/
  loop : first.readOn = if r'.limitReached then (false, r'.finish) else r'.readOn

/-- **Behind the segments passed, the loop takes the next segment in a turn.** -/
theorem Passes.continues {first r : Reading} {gs : List Segment} (h : first.Passes gs r)
    (hsound : r.stream.Sound) {g : Segment} {stream : TokenStream}
    (hg : r.stream.segment? = some (g, stream)) :
    first.Continues r (r.takeSegment g stream) where
  turn := by
    rw [turn?_eq hsound, hg]
    rfl
  loop := by rw [h.readOn_eq, readOn_of_some hg]

end Reading

end Netlist
