import Mathlib.Data.Option.Basic
import Netlist.Draft

/-!
# Reading two sources in lockstep

The same statement is read from two sources of tokens, whose words may have different identifiers
and which may keep their tokens in different ways. A `Lockstep` says what the two sources have in
common as long as they are inside of a segment, and when its last token was read. Each reader then
answers alike on both, with the same fault, and behind a statement both segments are read up.

## Results

* `TokenReader.runOn_bind`, `TokenReader.runOn_expect`: what a reader answers.
* `Lockstep.agree_read`: **a statement is read alike from both sources.**
-/

namespace Netlist

/-! ## Running a reader -/

namespace TokenReader

variable {σ α β : Type}

theorem runOn_bind (x : TokenReader σ α) (f : α → TokenReader σ β) (s : σ) :
    (x >>= f).runOn s = match x.runOn s with
      | (.ok a, s) => (f a).runOn s
      | (.error fault, s) => (.error fault, s) := by
  show (match x.run s with | (r, s) => ExceptT.bindCont f r s) = _
  unfold runOn
  show _ = match (x.run s : Except Fault α × σ) with
    | (.ok a, s) => StateT.run (f a).run s
    | (.error fault, s) => (.error fault, s)
  obtain ⟨r, u⟩ := (x.run s : Except Fault α × σ)
  cases r <;> rfl

/-- What fitting a token answers. -/
def fitted (f : TokenKind → Option α) (problem : Problem) :
    Option Token → Except Fault (α × Position)
  | none => .error ⟨problem, .endOfInput⟩
  | some t =>
    match f t.kind with
    | none => .error ⟨problem, .token t.position⟩
    | some a => .ok (a, t.position)

theorem runOn_fit (f : TokenKind → Option α) (problem : Problem) (t : Option Token) (s : σ) :
    (fit f problem t : TokenReader σ (α × Position)).runOn s = (fitted f problem t, s) := by
  cases t with
  | none => rfl
  | some t =>
    show (match f t.kind with
      | none => refuse problem (some t)
      | some a => pure (a, t.position) : TokenReader σ (α × Position)).runOn s = _
    unfold fitted
    simp only
    cases f t.kind <;> rfl

/-- A token is asked for, and then fitted. -/
theorem runOn_ask_fit {ask : TokenReader σ (Option Token)} {s : σ} {r : Option Token × σ}
    (hask : ask.runOn s = (.ok r.1, r.2)) (f : TokenKind → Option α) (problem : Problem) :
    (ask >>= fit f problem).runOn s = (fitted f problem r.1, r.2) := by
  rw [runOn_bind, hask]
  exact runOn_fit f problem r.1 r.2

variable [TokenSource σ]

theorem runOn_next (s : σ) :
    (next : TokenReader σ (Option Token)).runOn s =
      (.ok (TokenSource.next s).1, (TokenSource.next s).2) := rfl

theorem runOn_nextRaw (s : σ) :
    (nextRaw : TokenReader σ (Option Token)).runOn s =
      (.ok (TokenSource.nextRaw s).1, (TokenSource.nextRaw s).2) := rfl

theorem runOn_expect (f : TokenKind → Option α) (problem : Problem) (s : σ) :
    (expect f problem : TokenReader σ (α × Position)).runOn s =
      (fitted f problem (TokenSource.next s).1, (TokenSource.next s).2) :=
  runOn_ask_fit (runOn_next s) f problem

theorem runOn_expectRaw (f : TokenKind → Option α) (problem : Problem) (s : σ) :
    (expectRaw f problem : TokenReader σ (α × Position)).runOn s =
      (fitted f problem (TokenSource.nextRaw s).1, (TokenSource.nextRaw s).2) :=
  runOn_ask_fit (runOn_nextRaw s) f problem

end TokenReader

/-! ## What is alike -/

section Like

variable (W : Word → Word → Prop)

/-- Two kinds that differ in their words only. -/
inductive TokenKind.Like : TokenKind → TokenKind → Prop
  | heading {s : Section} {w w' : Word} (word : W w w') : Like (.heading s w) (.heading s w')
  | keyword {k : Keyword} {w w' : Word} (word : W w w') : Like (.keyword k w) (.keyword k w')
  | pin {w w' : Word} (word : W w w') : Like (.pin w) (.pin w')
  | name {w w' : Word} (word : W w w') : Like (.name w) (.name w')
  | number {w w' : Word} (digits : W w w') : Like (.number w) (.number w')
  | plain {k : TokenKind} (wordless : k.word? = none) : Like k k

/-- Two tokens that differ in their words only. -/
structure Token.Like (t t' : Token) : Prop where
  kind : t.kind.Like W t'.kind
  position : t.position = t'.position

/-- Two declarations that differ in their words only. -/
structure Declaration.Like (s s' : Declaration) : Prop where
  kind : s.kind = s'.kind
  name : W s.name s'.name
  namePosition : s.namePosition = s'.namePosition
  qualifier : s.qualifier = s'.qualifier

/-- Two mentions of outputs that differ in their words only. -/
structure OutputMention.Like (m m' : OutputMention) : Prop where
  device : W m.device m'.device
  pin : Option.Rel W m.pin m'.pin
  position : m.position = m'.position

/-- Two connections that differ in their words only. -/
structure Connection.Like (s s' : Connection) : Prop where
  source : s.source.Like W s'.source
  device : W s.device s'.device
  pin : W s.pin s'.pin
  pinPosition : s.pinPosition = s'.pinPosition

/-- Two statements that differ in their words only. -/
inductive Statement.Like : Statement → Statement → Prop
  | declaration {s s' : Declaration} (like : s.Like W s') : Like (.declaration s) (.declaration s')
  | connection {s s' : Connection} (like : s.Like W s') : Like (.connection s) (.connection s')
  | monitor {m m' : OutputMention} (like : m.Like W m') : Like (.monitor m) (.monitor m')

/-- Two devices that statements are read over alike. -/
structure Device.ReadAlike (d d' : Device) : Prop where
  kind : d.kind = d'.kind
  input : ∀ {w w' : Word}, W w w' → d.hasInput w.id = d'.hasInput w'.id

/-- Two circuits that statements are read over alike. -/
structure Circuit.ReadAlike (c c' : Circuit) : Prop where
  device : ∀ {w w' : Word}, W w w' →
    Option.Rel (Device.ReadAlike W) (c.device? w.id) (c'.device? w'.id)
  output : ∀ {w w' : Word}, W w w' →
    c.pins.dtypeOutputs.contains w.id = c'.pins.dtypeOutputs.contains w'.id

end Like

namespace TokenKind

variable {W : Word → Word → Prop} {k k' : TokenKind}

theorem Like.rel_name? (h : k.Like W k') : Option.Rel W k.name? k'.name? := by
  cases h with
  | name hw => exact .some hw
  | plain hk => cases k <;> first | exact .none | cases hk
  | _ => exact .none

theorem Like.rel_number? (h : k.Like W k') : Option.Rel W k.number? k'.number? := by
  cases h with
  | number hw => exact .some hw
  | plain hk => cases k <;> first | exact .none | cases hk
  | _ => exact .none

theorem Like.rel_pin? (h : k.Like W k') : Option.Rel W k.pin? k'.pin? := by
  cases h with
  | pin hw => exact .some hw
  | plain hk => cases k <;> first | exact .none | cases hk
  | _ => exact .none

theorem Like.eq_iff (h : k.Like W k') {m : TokenKind} (hm : m.word? = none) :
    k = m ↔ k' = m := by
  cases h with
  | plain hk => exact Iff.rfl
  | _ =>
    constructor
    · rintro rfl
      cases hm
    · rintro rfl
      cases hm

theorem Like.only_eq (h : k.Like W k') {m : TokenKind} (hm : m.word? = none) :
    only m k = only m k' := by
  unfold only
  simp only [h.eq_iff hm]

end TokenKind

/-! ## Sources in lockstep -/

/-- What a token that was read says about two sources: they are still `inside` of a segment, or its
last token was read and they are `done`. The tokens run out only if the segment `ends`. -/
inductive NextAlike {σ σ' : Type} (W : Word → Word → Prop) (inside done : σ → σ' → Prop)
    (ends : Prop) : Option Token × σ → Option Token × σ' → Prop
  | token {t t' : Token} {s : σ} {s' : σ'} (like : t.Like W t') (within : t.kind ≠ .semicolon)
      (rest : inside s s') : NextAlike W inside done ends (some t, s) (some t', s')
  | stop {p : Position} {s : σ} {s' : σ'} (rest : done s s') :
      NextAlike W inside done ends (some ⟨.semicolon, p⟩, s) (some ⟨.semicolon, p⟩, s')
  | none {s : σ} {s' : σ'} (ended : ends) (rest : done s s') :
      NextAlike W inside done ends (none, s) (none, s')

/-- Two sources of tokens in the same segment. -/
structure Lockstep (W : Word → Word → Prop) (σ σ' : Type) [TokenSource σ] [TokenSource σ'] where
  inside : σ → σ' → Prop
  done : σ → σ' → Prop
  ends : Prop
  text_eq {w w' : Word} : W w w' → w.text = w'.text
  next {s : σ} {s' : σ'} : inside s s' →
    NextAlike W inside done ends (TokenSource.next s) (TokenSource.next s')
  nextRaw {s : σ} {s' : σ'} : inside s s' →
    NextAlike W inside done ends (TokenSource.nextRaw s) (TokenSource.nextRaw s')

namespace Lockstep

variable {W : Word → Word → Prop} {σ σ' : Type} [TokenSource σ] [TokenSource σ']

/-- Two answers are alike, or the same fault stopped both readers somewhere in the segment. -/
inductive Agree (L : Lockstep W σ σ') {α α' : Type} (A : α → α' → Prop) (rest : σ → σ' → Prop) :
    Except Fault α × σ → Except Fault α' × σ' → Prop
  | ok {a : α} {a' : α'} {s : σ} {s' : σ'} (answer : A a a') (behind : rest s s') :
      Agree L A rest (.ok a, s) (.ok a', s')
  | error {fault : Fault} {s : σ} {s' : σ'} (behind : L.inside s s' ∨ L.done s s')
      (place : fault.place = .endOfInput → L.ends) :
      Agree L A rest (.error fault, s) (.error fault, s')

variable {L : Lockstep W σ σ'} {α α' β β' : Type} {A : α → α' → Prop} {B : β → β' → Prop}
  {P Q : σ → σ' → Prop} {s : σ} {s' : σ'}

theorem Agree.bind {x : TokenReader σ α} {x' : TokenReader σ' α'} {f : α → TokenReader σ β}
    {f' : α' → TokenReader σ' β'} (h : L.Agree A P (x.runOn s) (x'.runOn s'))
    (hf : ∀ {a a' s s'}, A a a' → P s s' → L.Agree B Q ((f a).runOn s) ((f' a').runOn s')) :
    L.Agree B Q ((x >>= f).runOn s) ((x' >>= f').runOn s') := by
  rw [TokenReader.runOn_bind, TokenReader.runOn_bind]
  generalize x.runOn s = r at h ⊢
  generalize x'.runOn s' = r' at h ⊢
  cases h with
  | ok ha hp => exact hf ha hp
  | error hb hp => exact .error hb hp

theorem agree_pure {a : α} {a' : α'} (h : A a a') (hs : P s s') :
    L.Agree A P ((pure a : TokenReader σ α).runOn s) ((pure a' : TokenReader σ' α').runOn s') :=
  .ok h hs

theorem agree_throw {fault : Fault} (hs : L.inside s s') {p : Position}
    (hp : fault.place = .token p) :
    L.Agree A P ((throw fault : TokenReader σ α).runOn s)
      ((throw fault : TokenReader σ' α').runOn s') :=
  .error (.inl hs) fun h => by rw [hp] at h; cases h

/-- Where the sources are behind a token of a kind. -/
def behind (L : Lockstep W σ σ') (k : TokenKind) : σ → σ' → Prop :=
  if k = .semicolon then L.done else L.inside

/-- What fits answers alike, and where the sources are then. -/
structure FitAlike (L : Lockstep W σ σ') (A : α → α' → Prop) (rest : σ → σ' → Prop)
    (f : TokenKind → Option α) (f' : TokenKind → Option α') : Prop where
  rel : ∀ {k k' : TokenKind}, k.Like W k' → Option.Rel A (f k) (f' k')
  behind : ∀ {k : TokenKind} {a : α}, f k = some a → L.behind k = rest

variable {f : TokenKind → Option α} {f' : TokenKind → Option α'} {problem : Problem}

theorem agree_fitted_some {t t' : Token} (hf : L.FitAlike A P f f') (ht : t.Like W t')
    (hs : L.behind t.kind s s') :
    L.Agree (fun a a' => A a.1 a'.1 ∧ a.2 = a'.2) P (TokenReader.fitted f problem (some t), s)
      (TokenReader.fitted f' problem (some t'), s') := by
  have hrel := hf.rel ht.kind
  unfold TokenReader.fitted
  cases hfk : f t.kind with
  | none =>
    rw [hfk] at hrel
    cases hfk' : f' t'.kind with
    | some a' => rw [hfk'] at hrel; cases hrel
    | none =>
      simp only [hfk, hfk', ht.position]
      refine .error ?_ fun h => by cases h
      unfold Lockstep.behind at hs
      split at hs
      · exact .inr hs
      · exact .inl hs
  | some a =>
    rw [hfk] at hrel
    cases hfk' : f' t'.kind with
    | none => rw [hfk'] at hrel; cases hrel
    | some a' =>
      rw [hfk'] at hrel
      cases hrel with
      | some ha =>
        simp only [hfk, hfk']
        refine .ok ⟨ha, ht.position⟩ ?_
        rw [← hf.behind hfk]
        exact hs

theorem agree_fitted {r : Option Token × σ} {r' : Option Token × σ'} (hf : L.FitAlike A P f f')
    (h : NextAlike W L.inside L.done L.ends r r') :
    L.Agree (fun a a' => A a.1 a'.1 ∧ a.2 = a'.2) P (TokenReader.fitted f problem r.1, r.2)
      (TokenReader.fitted f' problem r'.1, r'.2) := by
  cases h with
  | none he hs => exact .error (.inr hs) fun _ => he
  | token ht hk hs => exact agree_fitted_some hf ht (by rw [Lockstep.behind, if_neg hk]; exact hs)
  | stop hs =>
    exact agree_fitted_some hf ⟨.plain rfl, rfl⟩ (by rw [Lockstep.behind, if_pos rfl]; exact hs)

/-- What both readers ask for is fitted alike, whatever they pass over. -/
theorem agree_ask_fit {ask : TokenReader σ (Option Token)} {ask' : TokenReader σ' (Option Token)}
    {r : Option Token × σ} {r' : Option Token × σ'} (hf : L.FitAlike A P f f')
    (hask : ask.runOn s = (.ok r.1, r.2)) (hask' : ask'.runOn s' = (.ok r'.1, r'.2))
    (h : NextAlike W L.inside L.done L.ends r r') :
    L.Agree (fun a a' => A a.1 a'.1 ∧ a.2 = a'.2) P
      ((ask >>= TokenReader.fit f problem).runOn s)
      ((ask' >>= TokenReader.fit f' problem).runOn s') := by
  rw [TokenReader.runOn_ask_fit hask, TokenReader.runOn_ask_fit hask']
  exact agree_fitted hf h

theorem agree_expect (hf : L.FitAlike A P f f') (hs : L.inside s s') :
    L.Agree (fun a a' => A a.1 a'.1 ∧ a.2 = a'.2) P
      ((TokenReader.expect f problem).runOn s) ((TokenReader.expect f' problem).runOn s') :=
  agree_ask_fit hf (TokenReader.runOn_next s) (TokenReader.runOn_next s') (L.next hs)

theorem agree_expectRaw (hf : L.FitAlike A P f f') (hs : L.inside s s') :
    L.Agree (fun a a' => A a.1 a'.1 ∧ a.2 = a'.2) P
      ((TokenReader.expectRaw f problem).runOn s) ((TokenReader.expectRaw f' problem).runOn s') :=
  agree_ask_fit hf (TokenReader.runOn_nextRaw s) (TokenReader.runOn_nextRaw s') (L.nextRaw hs)

/-! ## What fits -/

/-- Where a `;` does not fit, a token that does leaves the sources inside. -/
theorem fitAlike_of_rel
    (hrel : ∀ {k k' : TokenKind}, k.Like W k' → Option.Rel A (f k) (f' k'))
    (hstop : f .semicolon = none) : L.FitAlike A L.inside f f' where
  rel := hrel
  behind {k _} h := if_neg fun hk => by
    rw [hk, hstop] at h
    cases h

theorem fitAlike_only {k : TokenKind} (hk : k.word? = none) :
    L.FitAlike (fun _ _ => True) (L.behind k) (TokenKind.only k) (TokenKind.only k) where
  rel {m m'} h := by
    rw [h.only_eq hk]
    cases TokenKind.only k m' with
    | none => exact .none
    | some _ => exact .some trivial
  behind {m _} h := by
    unfold TokenKind.only at h
    split at h
    · rename_i he
      rw [he]
    · cases h

variable {c c' : Circuit}

theorem rel_dtypeOutput? (hc : c.ReadAlike W c') {k k' : TokenKind} (h : k.Like W k') :
    Option.Rel W (Statement.dtypeOutput? c k) (Statement.dtypeOutput? c' k') := by
  have hrel := h.rel_pin?
  unfold Statement.dtypeOutput?
  generalize k.pin? = p at hrel ⊢
  generalize k'.pin? = p' at hrel ⊢
  cases hrel with
  | none => exact .none
  | @some w w' hw =>
    rw [Option.filter_some, Option.filter_some, hc.output hw]
    cases c'.pins.dtypeOutputs.contains w'.id with
    | true => exact .some hw
    | false => exact .none

/-! ## Readers of statements -/

open Statement

/-- Two words that are alike, at the same position. -/
abbrev SameWord (W : Word → Word → Prop) (a a' : Word × Position) : Prop := W a.1 a'.1 ∧ a.2 = a'.2

theorem agree_readName (hs : L.inside s s') :
    L.Agree (SameWord W) L.inside (readName.runOn s) (readName.runOn s') :=
  agree_expect (fitAlike_of_rel TokenKind.Like.rel_name? rfl) hs

theorem agree_readStop (hs : L.inside s s') :
    L.Agree (fun _ _ => True) L.done (readStop.runOn s) (readStop.runOn s') := by
  unfold readStop
  refine (agree_expect (fitAlike_only (k := .semicolon) rfl) hs).bind fun _ hs => ?_
  exact agree_pure trivial hs

theorem agree_readQualifier (form : QualifierForm) (hs : L.inside s s') :
    L.Agree Eq L.inside ((readQualifier form).runOn s) ((readQualifier form).runOn s') := by
  unfold readQualifier
  refine (agree_expect (fitAlike_only (k := .equal) rfl) hs).bind fun _ hs => ?_
  refine (agree_expect (fitAlike_of_rel TokenKind.Like.rel_number? rfl) hs).bind ?_
  rintro ⟨w, p⟩ ⟨w', p'⟩ s s' ⟨hw, hp⟩ hs
  cases hp
  refine agree_pure ?_ hs
  rw [L.text_eq hw]

theorem agree_readDeclaration (kind : DeviceKind) (hs : L.inside s s') :
    L.Agree (Declaration.Like W) L.done ((readDeclaration kind).runOn s)
      ((readDeclaration kind).runOn s') := by
  unfold readDeclaration
  refine (agree_readName hs).bind ?_
  rintro ⟨w, p⟩ ⟨w', p'⟩ s s' ⟨hw, hp⟩ hs
  cases hp
  have hrest : ∀ {q : Option (Qualifier × Position)} {s : σ} {s' : σ'}, L.inside s s' →
      L.Agree (Declaration.Like W) L.done
        ((do readStop; pure ⟨kind, w, p, q⟩ : TokenReader σ Declaration).runOn s)
        ((do readStop; pure ⟨kind, w', p, q⟩ : TokenReader σ' Declaration).runOn s') := by
    intro q s s' hs
    refine (agree_readStop hs).bind fun _ hs => ?_
    exact agree_pure ⟨rfl, hw, rfl, rfl⟩ hs
  simp only
  cases kind.qualifierForm? with
  | none => exact hrest hs
  | some form =>
    refine (agree_readQualifier form hs).bind ?_
    rintro q _ s s' rfl hs
    exact hrest hs

theorem agree_readDevice (hc : c.ReadAlike W c') (hs : L.inside s s') :
    L.Agree (fun a a' => W a.1 a'.1 ∧ a.2.1.ReadAlike W a'.2.1 ∧ a.2.2 = a'.2.2) L.inside
      ((readDevice c).runOn s) ((readDevice c').runOn s') := by
  unfold readDevice
  refine (agree_readName hs).bind ?_
  rintro ⟨w, p⟩ ⟨w', p'⟩ s s' ⟨hw, hp⟩ hs
  cases hp
  have hd := hc.device hw
  simp only
  generalize c.device? w.id = d at hd ⊢
  generalize c'.device? w'.id = d' at hd ⊢
  cases hd with
  | none =>
    rw [L.text_eq hw]
    exact agree_throw hs rfl
  | some hd => exact agree_pure ⟨hw, hd, rfl⟩ hs

theorem agree_readOutput (hc : c.ReadAlike W c') (hs : L.inside s s') :
    L.Agree (OutputMention.Like W) L.inside ((readOutput c).runOn s)
      ((readOutput c').runOn s') := by
  unfold readOutput
  refine (agree_readDevice hc hs).bind ?_
  rintro ⟨w, d, p⟩ ⟨w', d', p'⟩ s s' ⟨hw, hd, hp⟩ hs
  cases hp
  have hkind : d.kind = d'.kind := hd.kind
  have hname : w.text = w'.text := L.text_eq hw
  simp only [hkind, hname]
  split
  · refine (agree_expectRaw (fitAlike_only (k := .dot) rfl) hs).bind fun _ hs => ?_
    refine (agree_expectRaw (fitAlike_of_rel (rel_dtypeOutput? hc) rfl) hs).bind ?_
    rintro ⟨v, q⟩ ⟨v', q'⟩ s s' ⟨hv, hq⟩ hs
    exact agree_pure ⟨hw, .some hv, hq⟩ hs
  · exact agree_pure ⟨hw, .none, rfl⟩ hs

theorem agree_readBehind {m m' : OutputMention} (hm : m.Like W m') {k : TokenKind}
    (hk : k.word? = none) (problem : Problem) (hs : L.inside s s') :
    L.Agree (fun _ _ => True) (L.behind k) ((readBehind m k problem).runOn s)
      ((readBehind m' k problem).runOn s') := by
  have hname : m.device.text = m'.device.text := L.text_eq hm.device
  have hpin : m.pin.isNone = m'.pin.isNone := by
    have hrel := hm.pin
    generalize m.pin = v at hrel ⊢
    generalize m'.pin = v' at hrel ⊢
    cases hrel <;> rfl
  have hfit : ∀ {r : Option Token × σ} {r' : Option Token × σ'},
      NextAlike W L.inside L.done L.ends r r' → L.Agree (fun _ _ => True) (L.behind k)
        ((do let _ ← TokenReader.fit (TokenKind.only k) problem r.1 : TokenReader σ Unit).runOn r.2)
        ((do let _ ← TokenReader.fit (TokenKind.only k) problem r'.1 :
          TokenReader σ' Unit).runOn r'.2) := by
    intro r r' h
    have hfit : L.Agree (fun _ _ => True ∧ _) (L.behind k)
        (TokenReader.fitted _ problem r.1, r.2) (TokenReader.fitted _ problem r'.1, r'.2) :=
      agree_fitted (fitAlike_only hk) h
    rw [← TokenReader.runOn_fit, ← TokenReader.runOn_fit] at hfit
    exact hfit.bind fun _ hs => agree_pure trivial hs
  unfold readBehind
  rw [TokenReader.runOn_bind, TokenReader.runOn_bind, TokenReader.runOn_next,
    TokenReader.runOn_next]
  have h := L.next hs
  generalize TokenSource.next s = r at h ⊢
  generalize TokenSource.next s' = r' at h ⊢
  simp only [hname, hpin]
  have hdot : r.1.map Token.kind = some .dot ↔ r'.1.map Token.kind = some .dot := by
    cases h with
    | token ht _ _ => simpa using ht.kind.eq_iff rfl
    | _ => exact Iff.rfl
  by_cases hd : m'.pin.isNone = true ∧ r'.1.map Token.kind = some .dot
  · rw [if_pos hd, if_pos ⟨hd.1, hdot.mpr hd.2⟩]
    cases h with
    | token ht hn hs =>
      unfold TokenReader.refuse Place.ofToken?
      simp only [ht.position]
      exact agree_throw hs rfl
    | stop => cases hd.2
    | none => cases hd.2
  · rw [if_neg hd, if_neg fun h => hd ⟨h.1, hdot.mp h.2⟩]
    exact hfit h

theorem agree_readConnection (hc : c.ReadAlike W c') (hs : L.inside s s') :
    L.Agree (Connection.Like W) L.done ((readConnection c).runOn s)
      ((readConnection c').runOn s') := by
  unfold readConnection
  refine (agree_readOutput hc hs).bind fun {m m'} _ _ hm hs => ?_
  refine (agree_readBehind hm (k := .arrow) rfl _ hs).bind fun _ hs => ?_
  refine (agree_readDevice hc hs).bind ?_
  rintro ⟨w, d, p⟩ ⟨w', d', p'⟩ s s' ⟨hw, hd, hp⟩ hs
  refine (agree_expectRaw (fitAlike_only (k := .dot) rfl) hs).bind fun _ hs => ?_
  refine (agree_expectRaw (fitAlike_of_rel TokenKind.Like.rel_pin? rfl) hs).bind ?_
  rintro ⟨v, q⟩ ⟨v', q'⟩ s s' ⟨hv, hq⟩ hs
  cases hq
  have hinput : d.hasInput v.id = d'.hasInput v'.id := hd.input hv
  have hname : w.text = w'.text := L.text_eq hw
  have hpin : v.text = v'.text := L.text_eq hv
  simp only [hinput, hname, hpin]
  split
  · exact agree_throw hs (p := q) rfl
  · refine (agree_readStop hs).bind fun _ hs => ?_
    exact agree_pure ⟨hm, hw, hv, rfl⟩ hs

theorem agree_readMonitor (hc : c.ReadAlike W c') (hs : L.inside s s') :
    L.Agree (OutputMention.Like W) L.done ((readMonitor c).runOn s)
      ((readMonitor c').runOn s') := by
  unfold readMonitor
  refine (agree_readOutput hc hs).bind fun {m m'} _ _ hm hs => ?_
  refine (agree_readBehind hm (k := .semicolon) rfl _ hs).bind fun _ hs => ?_
  exact agree_pure hm hs

/-- **A statement is read alike from both sources**, and behind it the segment is read up. -/
theorem agree_read (hc : c.ReadAlike W c') (k : Keyword) (hs : L.inside s s') :
    L.Agree (Statement.Like W) L.done ((Statement.read c k).runOn s)
      ((Statement.read c' k).runOn s') := by
  cases k with
  | device kind =>
    refine (agree_readDeclaration kind hs).bind fun h hs => ?_
    exact agree_pure (.declaration h) hs
  | connect =>
    refine (agree_readConnection hc hs).bind fun h hs => ?_
    exact agree_pure (.connection h) hs
  | monitor =>
    refine (agree_readMonitor hc hs).bind fun h hs => ?_
    exact agree_pure (.monitor h) hs

end Lockstep

end Netlist
