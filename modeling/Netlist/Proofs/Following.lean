import Netlist.Proofs.Forms
import Netlist.Proofs.Lockstep

/-!
# Reading follows the forms

A statement is read token by token, and so is its form compared with the tokens. The readers look
for faults in an order of their own, with a wording for each, but the token that they refuse is
always the first one that does not fit; and where all tokens fit, what is read is what they spell.

## Results

* `Form.Follows.bind`: readers one behind the other follow forms one behind the other.
* `Form.follows_fit`: one token is asked for, and may be refused later on.
* `Statement.follows_read`: **reading a statement follows its form.**
-/

namespace Netlist

/-! ## Readers that follow a form -/

/-- The pin of a token is an output pin of a D-type just if its text is. -/
def Token.Apt (c : Circuit) (t : Token) : Prop :=
  ∀ w ∈ t.kind.pin?, c.pins.dtypeOutputs.contains w.id = decide (w.text ∈ Pin.dtypeOutputWords)

namespace Form

/-- An answer and a comparison of the same tokens: a fault at the first token that does not fit, or
something that is `said` by the tokens that match. -/
inductive Tallies {α : Type} (said : α → List Token → Prop) :
    Except Place (List Token × List Token) → Except Fault α × List Token → Prop
  | fault {problem : Problem} {place : Place} {rest : List Token} :
      Tallies said (.error place) (.error ⟨problem, place⟩, rest)
  | read {matched rest : List Token} {a : α} (h : said a matched) :
      Tallies said (.ok (matched, rest)) (.ok a, rest)

/-- Tokens that matched in front are part of what matches. -/
theorem Tallies.behind {α : Type} {said : α → List Token → Prop} {ms : List Token}
    {compared : Except Place (List Token × List Token)} {answer : Except Fault α × List Token}
    (h : Tallies (fun a more => said a (ms ++ more)) compared answer) :
    Tallies said (do
      let (more, rest) ← compared
      return (ms ++ more, rest)) answer := by
  cases h with
  | fault => exact .fault
  | read ha => exact .read ha

/-- Reading tokens tallies with comparing them with the form. -/
def Follows (P : Token → Prop) {α : Type} (x : TokenReader (List Token) α) (f : Form)
    (said : α → List Token → Prop) : Prop :=
  ∀ ts, (∀ t ∈ ts, P t) → Tallies said (f.compare ts) (x.runOn ts)

open TokenReader

variable {P : Token → Prop} {α β : Type} {f g : Form} {said : β → List Token → Prop}

theorem follows_pure {b : β} (h : said b []) : Follows P (pure b) done said := fun _ _ => .read h

/-- **Readers one behind the other follow forms one behind the other.** -/
theorem Follows.bind {x : TokenReader (List Token) α} {y : α → TokenReader (List Token) β}
    {first : α → List Token → Prop} (h : Follows P x f first)
    (hy : ∀ a ms, first a ms → Follows P (y a) g fun b more => said b (ms ++ more)) :
    Follows P (x >>= y) (f ++ g) said := by
  intro ts hts
  rw [runOn_bind, compare_append]
  have hx := h ts hts
  cases hf : f.compare ts with
  | error place =>
    rw [hf] at hx
    generalize x.runOn ts = answer at hx ⊢
    cases hx
    exact .fault
  | ok matched =>
    obtain ⟨ms, rest⟩ := matched
    have hrest : ∀ t ∈ rest, P t := fun t ht =>
      hts t (mem_of_compare hf t (List.mem_append_right _ ht))
    rw [hf] at hx
    generalize x.runOn ts = answer at hx ⊢
    cases hx with
    | @read _ _ a ha => exact (hy a ms ha rest hrest).behind

/-- What is made of an answer does not change what is read. -/
theorem Follows.map {x : TokenReader (List Token) α} {first : α → List Token → Prop} {make : α → β}
    (h : Follows P x f first) (hmake : ∀ a ms, first a ms → said (make a) ms) :
    Follows P (do return make (← x)) f said := by
  intro ts hts
  rw [runOn_bind]
  have hx := h ts hts
  generalize f.compare ts = compared at hx ⊢
  generalize x.runOn ts = answer at hx ⊢
  cases hx with
  | fault => exact .fault
  | read ha => exact .read (hmake _ _ ha)

/-- Whether a reader asks for one token, and how it is answered. -/
def Asks (glued : Bool) (fit : TokenKind → Option α) (problem : Problem)
    (ask : TokenReader (List Token) (α × Position)) : Prop :=
  ∀ ts, ask.runOn ts = (fitted fit problem (front glued ts).head?, (front glued ts).tail)

theorem asks_expect {fit : TokenKind → Option α} {problem : Problem} :
    Asks false fit problem (expect fit problem) := fun ts => runOn_expect fit problem ts

theorem asks_expectRaw {fit : TokenKind → Option α} {problem : Problem} :
    Asks true fit problem (expectRaw fit problem) := fun ts => runOn_expectRaw fit problem ts

variable {glued : Bool} {fit : TokenKind → Option α} {problem : Problem}
  {ask : TokenReader (List Token) (α × Position)} {y : α × Position → TokenReader (List Token) β}
  {fits : TokenKind → Bool} {behind : TokenKind → Form}

theorem fitted_of_some {t : Token} {a : α} (h : fit t.kind = some a) :
    fitted fit problem (some t) = .ok (a, t.position) := by
  simp only [fitted, h]

theorem fitted_of_none {t : Token} (h : fit t.kind = none) :
    fitted fit problem (some t) = .error ⟨problem, .token t.position⟩ := by
  simp only [fitted, h]

/-- A reader asks for a token and goes on with it. A token may be refused behind it, if it is the
place of the fault. -/
theorem follows_fit (hask : Asks glued fit problem ask)
    (hfits : ∀ t, P t → fits t.kind = true → ∃ a, fit t.kind = some a ∧
      Follows P (y (a, t.position)) (behind t.kind) fun b ms => said b (t :: ms))
    (hmisfit : ∀ t a, P t → fits t.kind = false → fit t.kind = some a →
      ∀ ts, ∃ problem rest, (y (a, t.position)).runOn ts =
        (.error ⟨problem, .token t.position⟩, rest)) :
    Follows P (ask >>= y) (token glued fits behind) said := by
  intro ts hts
  rw [runOn_bind, hask ts]
  cases hfront : front glued ts with
  | nil =>
    rw [compare_of_nil hfront]
    exact .fault
  | cons t us =>
    have hmem : ∀ u ∈ t :: us, P u := fun u hu => hts u (mem_of_mem_front (hfront ▸ hu))
    have ht := hmem t List.mem_cons_self
    cases hfit : fits t.kind with
    | true =>
      obtain ⟨a, ha, hfollows⟩ := hfits t ht hfit
      have hrest : Tallies (fun b more => said b ([t] ++ more)) _ _ :=
        hfollows us fun u hu => hmem u (List.mem_cons_of_mem _ hu)
      rw [compare_of_fits hfront hfit, List.head?_cons, fitted_of_some ha]
      exact hrest.behind
    | false =>
      rw [compare_of_misfit hfront hfit, List.head?_cons]
      cases ha : fit t.kind with
      | none =>
        rw [fitted_of_none ha]
        exact .fault
      | some a =>
        obtain ⟨problem', rest, hy⟩ := hmisfit t a ht hfit ha us
        rw [fitted_of_some ha]
        show Tallies said _ ((y (a, t.position)).runOn us)
        rw [hy]
        exact .fault

/-! ### Single tokens -/

/-- A token of one kind. -/
theorem follows_sign {k : TokenKind} {ask : TokenReader (List Token) (Unit × Position)}
    {y : Unit × Position → TokenReader (List Token) β}
    (hask : Asks glued (TokenKind.only k) problem ask)
    (hy : ∀ p, Follows P (y ((), p)) g fun b ms => said b (⟨k, p⟩ :: ms)) :
    Follows P (ask >>= y) (token glued (· = k) fun _ => g) said := by
  refine follows_fit hask (fun t _ hfits => ?_) fun t a _ hmisfit ha => ?_
  · have hk : t.kind = k := of_decide_eq_true hfits
    refine ⟨(), if_pos hk, ?_⟩
    have htoken : t = ⟨k, t.position⟩ := by rw [← hk]
    rw [htoken]
    exact hy t.position
  · rw [TokenKind.only, if_neg (of_decide_eq_false hmisfit)] at ha
    cases ha

/-- Any token that gives the reader something. -/
theorem follows_some (hask : Asks glued fit problem ask)
    (hy : ∀ t a, fit t.kind = some a →
      Follows P (y (a, t.position)) (behind t.kind) fun b ms => said b (t :: ms)) :
    Follows P (ask >>= y) (token glued (fun k => (fit k).isSome) behind) said := by
  refine follows_fit hask (fun t _ hfits => ?_) fun t a _ hmisfit ha => ?_
  · obtain ⟨a, ha⟩ := Option.isSome_iff_exists.mp hfits
    exact ⟨a, ha, hy t a ha⟩
  · rw [ha] at hmisfit
    cases hmisfit

/-- A token of the kind that a word is read from: a name, or a number. -/
theorem follows_word {word? : TokenKind → Option Word} {kind : Word → TokenKind}
    {ask : TokenReader (List Token) (Word × Position)}
    {y : Word × Position → TokenReader (List Token) β} (hask : Asks glued word? problem ask)
    (hkind : ∀ {k w}, word? k = some w ↔ k = kind w)
    (hy : ∀ w p, Follows P (y (w, p)) (behind (kind w)) fun b ms => said b (⟨kind w, p⟩ :: ms)) :
    Follows P (ask >>= y) (token glued (fun k => (word? k).isSome) behind) said := by
  refine follows_some hask fun t w hw => ?_
  obtain ⟨k, p⟩ := t
  obtain rfl : k = kind w := hkind.mp hw
  exact hy w p

theorem follows_readStop {y : Unit → TokenReader (List Token) β}
    (hy : ∀ p, Follows P (y ()) g fun b ms => said b (⟨.semicolon, p⟩ :: ms)) :
    Follows P (Statement.readStop >>= y) (stop ++ g) said := by
  unfold Statement.readStop
  rw [bind_assoc]
  refine follows_sign asks_expect fun p => ?_
  rw [pure_bind]
  exact hy p

variable {c : Circuit}

/-- The name of a declared device. -/
theorem follows_readDevice {y : Word × Device × Position → TokenReader (List Token) β}
    (hy : ∀ w p d, c.device? w.id = some d →
      Follows P (y (w, d, p)) (behind (.name w)) fun b ms => said b (⟨.name w, p⟩ :: ms)) :
    Follows P (Statement.readDevice c >>= y) (token false (fun k => (device? c k).isSome) behind)
      said := by
  unfold Statement.readDevice Statement.readName
  rw [bind_assoc]
  refine follows_fit asks_expect (fun t _ hfits => ?_) fun t w _ hmisfit hw ts => ?_
  · obtain ⟨kind, p⟩ := t
    obtain ⟨d, hd⟩ := Option.isSome_iff_exists.mp hfits
    obtain ⟨w, hw, hd⟩ := Option.bind_eq_some_iff.mp hd
    cases kind with
    | name v =>
      cases hw
      have hd : c.device? w.id = some d := hd
      refine ⟨w, rfl, ?_⟩
      simp only [hd, pure_bind]
      exact hy w p d hd
    | _ => cases hw
  · have hd : c.device? w.id = none := by
      unfold device? at hmisfit
      rw [hw] at hmisfit
      simpa using hmisfit
    simp only [hd]
    exact ⟨_, ts, rfl⟩

/-- Behind an output one kind of token is expected. A dot is refused with a wording of its own. -/
theorem exists_runOn_readBehind (m : OutputMention) {k : TokenKind} (hk : k ≠ .dot)
    (problem : Problem) (ts : List Token) :
    ∃ problem', (Statement.readBehind m k problem).runOn ts =
      (do let _ ← expect (TokenKind.only k) problem' : TokenReader (List Token) Unit).runOn ts := by
  unfold Statement.readBehind
  rw [runOn_bind, runOn_next]
  simp only
  split
  · rename_i hdot
    obtain ⟨t, ht, hkind⟩ := Option.map_eq_some_iff.mp hdot.2
    have hnone : TokenKind.only k t.kind = none := if_neg (hkind ▸ hk.symm)
    refine ⟨.singleOutput m.device.text, ?_⟩
    rw [runOn_bind, runOn_expect, ht, fitted, hnone]
    rfl
  · exact ⟨problem, by rw [runOn_bind, runOn_bind, runOn_expect, runOn_fit]⟩

/-- An arrow or a `;` behind an output. -/
theorem follows_readBehind {m : OutputMention} {k : TokenKind}
    {y : Unit → TokenReader (List Token) β} (hk : k ≠ .dot)
    (hy : ∀ p, Follows P (y ()) g fun b ms => said b (⟨k, p⟩ :: ms)) :
    Follows P (Statement.readBehind m k problem >>= y) (one (· = k) ++ g) said := by
  intro ts hts
  obtain ⟨problem', hbehind⟩ := exists_runOn_readBehind m hk problem ts
  have hanswer : (Statement.readBehind m k problem >>= y).runOn ts =
      (expect (TokenKind.only k) problem' >>= fun _ => y ()).runOn ts := by
    rw [runOn_bind, hbehind, ← runOn_bind, bind_assoc]
    simp only [pure_bind]
  have hfollows : Follows P (expect (TokenKind.only k) problem' >>= fun _ => y ())
      (one (· = k) ++ g) said := follows_sign asks_expect hy
  rw [hanswer]
  exact hfollows ts hts

/-! ### Statements -/

open Statement

/-- The pin of a D-type. -/
theorem follows_dtypeOutput {y : Word × Position → TokenReader (List Token) β}
    (hP : ∀ t, P t → t.Apt c) (hy : ∀ w p, c.pins.dtypeOutputs.contains w.id = true →
      Follows P (y (w, p)) (behind (.pin w)) fun b ms => said b (⟨.pin w, p⟩ :: ms)) :
    Follows P (expectRaw (dtypeOutput? c) problem >>= y) (token true isOutputPin behind) said := by
  refine follows_fit asks_expectRaw (fun t ht hfits => ?_) fun t a ht hmisfit ha => ?_
  · have hapt := hP t ht
    obtain ⟨kind, p⟩ := t
    cases kind with
    | pin w =>
      have hw : c.pins.dtypeOutputs.contains w.id = true := (hapt w rfl).trans hfits
      exact ⟨w, Option.filter_eq_some_iff.mpr ⟨rfl, hw⟩, hy w p hw⟩
    | _ => cases hfits
  · obtain ⟨hpin, hcontains⟩ := Option.filter_eq_some_iff.mp ha
    have hw := hP t ht a hpin
    unfold isOutputPin at hmisfit
    rw [hpin] at hmisfit
    rw [hcontains] at hw
    rw [Option.any_some, ← hw] at hmisfit
    cases hmisfit

theorem follows_readOutput (hP : ∀ t, P t → t.Apt c) :
    Follows P (readOutput c) (output c) fun m ms => m.Spelled ms ∧ m.Fits c := by
  unfold readOutput
  refine follows_readDevice fun w p d hd => ?_
  have hdevice : device? c (.name w) = some d := hd
  rw [hdevice, Option.map_some]
  by_cases hkind : d.kind = .dtype
  · rw [if_pos (congrArg some hkind)]
    simp only [if_pos hkind]
    refine follows_sign asks_expectRaw fun q => ?_
    refine follows_dtypeOutput hP fun v r hv => ?_
    exact follows_pure ⟨.pin, d, hd, by rw [if_pos hkind]; exact ⟨v, rfl, hv⟩⟩
  · rw [if_neg fun h => hkind (Option.some.inj h)]
    simp only [if_neg hkind]
    exact follows_pure ⟨.plain, d, hd, by rw [if_neg hkind]⟩

theorem follows_readDeclaration (kind : DeviceKind) :
    Follows P (readDeclaration kind) (declaration kind) fun s ms =>
      Spelled (.device kind) ms (.declaration s) ∧ Fits c (.declaration s) := by
  unfold readDeclaration declaration
  refine follows_word asks_expect TokenKind.name?_eq_some_iff fun w p => ?_
  cases hform : kind.qualifierForm? with
  | none =>
    exact follows_readStop fun q => follows_pure
      ⟨.plain, .declaration (by rw [hform]; rfl)⟩
  | some form =>
    unfold readQualifier
    simp only [bind_assoc, pure_bind]
    refine follows_sign asks_expect fun q => ?_
    refine follows_word asks_expect TokenKind.number?_eq_some_iff fun digits r => ?_
    exact follows_readStop fun u => follows_pure
      ⟨.qualified hform, .declaration (by rw [hform]; rfl)⟩

theorem follows_readConnection (hP : ∀ t, P t → t.Apt c) :
    Follows P (readConnection c) (Keyword.connect.form c) fun s ms =>
      Spelled .connect ms (.connection s) ∧ Fits c (.connection s) := by
  unfold readConnection
  refine (follows_readOutput hP).bind fun m ms hm => ?_
  refine follows_readBehind nofun fun p => ?_
  refine follows_readDevice fun w q d hd => ?_
  refine follows_sign asks_expectRaw fun r => ?_
  have hdevice : device? c (.name w) = some d := hd
  refine follows_fit asks_expectRaw (fun t _ hfits => ?_) fun t v _ hmisfit hv us => ?_
  · obtain ⟨kind, u⟩ := t
    rw [hdevice] at hfits
    cases kind with
    | pin v =>
      have hinput : d.hasInput v.id = true := hfits
      refine ⟨v, rfl, ?_⟩
      simp only [hinput, Bool.not_true, Bool.false_eq_true, if_false]
      exact follows_readStop fun o =>
        follows_pure ⟨.connection hm.1, .connection hm.2 hd hinput⟩
    | _ => cases hfits
  · have hinput : d.hasInput v.id = false := by
      unfold isInputPin at hmisfit
      rw [hdevice, Option.any_some, hv, Option.any_some] at hmisfit
      exact hmisfit
    simp only [hinput, Bool.not_false, if_true]
    exact ⟨_, us, rfl⟩

theorem follows_readMonitor (hP : ∀ t, P t → t.Apt c) :
    Follows P (readMonitor c) (Keyword.monitor.form c) fun m ms =>
      Spelled .monitor ms (.monitor m) ∧ Fits c (.monitor m) := by
  unfold readMonitor
  refine (follows_readOutput hP).bind fun m ms hm => ?_
  refine follows_readBehind nofun fun p => ?_
  exact follows_pure ⟨.monitor hm.1, .monitor hm.2⟩

end Form

/-- **Reading a statement follows its form**, over tokens whose pins are told by their texts. -/
theorem Statement.follows_read (c : Circuit) (k : Keyword) :
    Form.Follows (Token.Apt c) (Statement.read c k) (k.form c) fun st ms =>
      Spelled k ms st ∧ Fits c st := by
  cases k with
  | device kind => exact (Form.follows_readDeclaration kind).map fun _ _ h => h
  | connect => exact (Form.follows_readConnection fun _ h => h).map fun _ _ h => h
  | monitor => exact (Form.follows_readMonitor fun _ h => h).map fun _ _ h => h

end Netlist
