import Netlist.Proofs.Depiction
import Netlist.Proofs.Lockstep
import Netlist.Proofs.Segmentation

/-!
# Reading over two tables

Two runs that know different names give the same words different identifiers. As long as both drafts
depict one blueprint and are in the same section, the same segment has the same fault in both, and
they depict one blueprint behind it.

## Results

* `Circuit.Depicts.readAlike`: statements are read alike over circuits of one blueprint.
* `Draft.Alike.take`: **a segment does the same to drafts of one blueprint.**
-/

namespace Netlist

open Lexeme (tokensOver interned)

/-! ## Words of two tables -/

/-- A text with its identifiers over two tables. -/
structure Word.Twin (t t' : NameTable) (w w' : Word) : Prop where
  text : w.text = w'.text
  left : w.Over t
  right : w'.Over t'

/-- Whether a table holds all words of lexemes. -/
def NameTable.Knows (t : NameTable) (ls : List Lexeme) : Prop :=
  ∀ w ∈ ls.flatMap interned, w ∈ t.names

section Twin

variable {t t' : NameTable}

theorem Word.twin_wordOver {text : List Char} (h : String.ofList text ∈ t.names)
    (h' : String.ofList text ∈ t'.names) :
    Word.Twin t t' (Lexeme.wordOver t text) (Lexeme.wordOver t' text) :=
  ⟨rfl, ⟨h, rfl⟩, ⟨h', rfl⟩⟩

/-- A lexeme has tokens that are alike over tables that know its word. -/
theorem Lexeme.kindOver_like {l : Lexeme} (h : t.Knows [l]) (h' : t'.Knows [l]) :
    (l.kindOver t).Like (Word.Twin t t') (l.kindOver t') := by
  cases l with
  | word text =>
    have hw := Word.twin_wordOver (h (String.ofList text) List.mem_cons_self)
      (h' (String.ofList text) List.mem_cons_self)
    show (TokenKind.ofWord (wordOver t text) _).Like _ (TokenKind.ofWord (wordOver t' text) _)
    cases WordClass.ofText (String.ofList text) with
    | heading s => exact .heading hw
    | keyword k => exact .keyword hw
    | pin => exact .pin hw
    | name => exact .name hw
  | numeral text =>
    exact .number (Word.twin_wordOver (h (String.ofList text) List.mem_cons_self)
      (h' (String.ofList text) List.mem_cons_self))
  | blank text => exact .plain rfl
  | arrow => exact .plain rfl
  | mark c => exact .plain (ofMark_word? c)

theorem OutputMention.Like.over {m m' : OutputMention} (h : m.Like (Word.Twin t t') m') :
    m.Over t ∧ m'.Over t' ∧ m.outputName = m'.outputName := by
  obtain ⟨device, pin, position⟩ := m
  obtain ⟨device', pin', position'⟩ := m'
  obtain ⟨hd, hp, -⟩ := h
  have hname : device.text = device'.text := hd.text
  unfold outputName
  simp only [hname]
  cases hp with
  | none => exact ⟨⟨hd.left, nofun⟩, ⟨hd.right, nofun⟩, rfl⟩
  | some hw =>
    refine ⟨⟨hd.left, fun w hm => ?_⟩, ⟨hd.right, fun w hm => ?_⟩, ?_⟩
    · cases hm
      exact hw.left
    · cases hm
      exact hw.right
    · rw [Option.map_some, Option.map_some, hw.text]

/-- Statements that are alike do the same to a blueprint. -/
theorem Statement.Like.over {st st' : Statement} (h : st.Like (Word.Twin t t') st') :
    st.Over t ∧ st'.Over t' ∧ ∀ B : Blueprint, B.apply st = B.apply st' := by
  cases h with
  | @declaration s s' h =>
    refine ⟨.declaration h.name.left, .declaration h.name.right, fun B => ?_⟩
    have hfault : Draft.declarationFault s = Draft.declarationFault s' := by
      funext e
      cases e <;>
        simp only [Draft.declarationFault, h.name.text, h.kind, h.namePosition, h.qualifier]
    simp only [Blueprint.apply, h.name.text, h.kind, h.qualifier, hfault]
  | @connection s s' h =>
    obtain ⟨hs, hs', hname⟩ := h.source.over
    refine ⟨.connection hs h.device.left h.pin.left, .connection hs' h.device.right h.pin.right,
      fun B => ?_⟩
    have hfault : Draft.connectionFault s = Draft.connectionFault s' := by
      funext e
      cases e <;>
        simp only [Draft.connectionFault, h.device.text, h.pin.text, h.pinPosition]
    simp only [Blueprint.apply, Connection.wire, hname, h.device.text, h.pin.text, hfault]
  | @monitor m m' h =>
    obtain ⟨hm, hm', hname⟩ := h.over
    refine ⟨.monitor hm, .monitor hm', fun B => ?_⟩
    have hfault : Draft.monitorFault m = Draft.monitorFault m' := by
      funext e
      cases e <;> simp only [Draft.monitorFault, h.position]
    simp only [Blueprint.apply, hname, hfault]

end Twin

/-! ## Circuits of one blueprint -/

theorem Circuit.Depicts.readAlike {t t' : NameTable} {c c' : Circuit} {B : Blueprint}
    (h : c.Depicts t B) (h' : c'.Depicts t' B) : c.ReadAlike (Word.Twin t t') c' where
  device {w w'} hw := by
    rw [hw.left.id, hw.right.id, hw.text, h.device?_idOf, h'.device?_idOf]
    cases hp : B.part? w'.text with
    | none => exact .none
    | some x =>
      obtain ⟨hx, -⟩ := Blueprint.mem_of_part? hp
      refine .some ⟨?_, fun {v v'} hv => ?_⟩
      · rw [Blueprint.kind_deviceOver, Blueprint.kind_deviceOver]
      · rw [hv.left.id, hv.right.id, hv.text, Bool.eq_iff_iff, h.hasInput_deviceOver hx,
          h'.hasInput_deviceOver hx]
  output {w w'} hw := by
    rw [hw.left.id, hw.right.id, hw.text, h.dtypeOutputs_contains, h'.dtypeOutputs_contains]

/-! ## The lexemes of a segment -/

/-- The tokens of the same lexemes over two tables. The last lexeme was read without a `;` only if
the segment `ends` there. -/
structure SameTokens (t t' : NameTable) (ends : Prop) (ts ts' : List Token) : Prop where
  same : ∃ p ls, ts = tokensOver t p ls ∧ ts' = tokensOver t' p ls ∧ t.Knows ls ∧ t'.Knows ls ∧
    (.mark ';' ∉ ls → ends)

variable {t t' : NameTable} {ends : Prop}

theorem NameTable.Knows.of_le {ls : List Lexeme} (h : t.Knows ls) (hle : t ≤ t') : t'.Knows ls :=
  fun w hw => mem_of_le hle (h w hw)

theorem NameTable.Knows.of_append {ls ms : List Lexeme} (h : t.Knows (ls ++ ms)) :
    t.Knows ls ∧ t.Knows ms := by
  unfold Knows at h ⊢
  simp only [List.flatMap_append, List.mem_append] at h
  exact ⟨fun w hw => h w (.inl hw), fun w hw => h w (.inr hw)⟩

theorem NameTable.Knows.of_cons {l : Lexeme} {ls : List Lexeme} (h : t.Knows (l :: ls)) :
    t.Knows [l] ∧ t.Knows ls :=
  of_append h

theorem SameTokens.nextAlike {ts ts' : List Token} (h : SameTokens t t' ends ts ts') :
    NextAlike (Word.Twin t t') (SameTokens t t' ends) (fun _ _ => True) ends
      (ts.head?, ts.tail) (ts'.head?, ts'.tail) := by
  obtain ⟨p, ls, rfl, rfl, h, h', hends⟩ := h
  cases ls with
  | nil => exact .none (hends List.not_mem_nil) trivial
  | cons l ls =>
    obtain ⟨hl, hls⟩ := h.of_cons
    obtain ⟨hl', hls'⟩ := h'.of_cons
    by_cases hstop : l = .mark ';'
    · subst hstop
      exact .stop trivial
    · refine .token ⟨Lexeme.kindOver_like hl hl', rfl⟩
        (mt Lexeme.kindOver_eq_semicolon_iff.mp hstop) ⟨p.after l.text, ls, rfl, rfl, hls, hls', ?_⟩
      intro hm
      exact hends fun hc => (List.mem_cons.mp hc).elim (fun he => hstop he.symm) hm

/-- White space in front is passed over alike. -/
theorem sameTokens_dropWhile {p : Position} {ls : List Lexeme} (h : t.Knows ls)
    (h' : t'.Knows ls) (hends : .mark ';' ∉ ls → ends) :
    SameTokens t t' ends ((tokensOver t p ls).dropWhile (·.kind = .space))
      ((tokensOver t' p ls).dropWhile (·.kind = .space)) := by
  have hls := List.takeWhile_append_dropWhile (p := Lexeme.isBlank) (l := ls)
  have hblank : .mark ';' ∉ ls.takeWhile Lexeme.isBlank := fun hm =>
    Bool.false_ne_true (Lexeme.isBlank_of_mem_takeWhile ls _ hm)
  rw [← hls] at h h' hends
  rw [TokenStream.dropWhile_tokensOver, TokenStream.dropWhile_tokensOver]
  refine ⟨_, _, rfl, rfl, h.of_append.2, h'.of_append.2, fun hm => hends fun hc => ?_⟩
  exact (List.mem_append.mp hc).elim hblank hm

/-- The same segment, over two tables. -/
def Lockstep.ofTables (t t' : NameTable) (ends : Prop) :
    Lockstep (Word.Twin t t') (List Token) (List Token) where
  inside := SameTokens t t' ends
  done _ _ := True
  ends := ends
  text_eq h := h.text
  next := by
    rintro s s' ⟨p, ls, rfl, rfl, h, h', hends⟩
    exact (sameTokens_dropWhile h h' hends).nextAlike
  nextRaw h := h.nextAlike

/-- A circuit is read alike over a table beside itself. -/
theorem Circuit.readAlike_twin (t : NameTable) (c : Circuit) :
    c.ReadAlike (Word.Twin t t) c where
  device {w w'} hw := by
    rw [hw.left.id, hw.right.id, hw.text]
    cases c.device? (t.idOf w'.text) with
    | none => exact .none
    | some d => exact .some ⟨rfl, fun hv => by rw [hv.left.id, hv.right.id, hv.text]⟩
  output hw := by rw [hw.left.id, hw.right.id, hw.text]

/-- The words of a statement that was read are of the table. -/
theorem over_of_read {c : Circuit} {k : Keyword} {p : Position} {ls : List Lexeme}
    (hk : t.Knows ls) {st : Statement} {ts : List Token}
    (hread : (Statement.read c k).runOn (tokensOver t p ls) = (.ok st, ts)) : st.Over t := by
  have hagree := (Lockstep.ofTables t t True).agree_read (c.readAlike_twin t) k
    ⟨p, ls, rfl, rfl, hk, hk, fun _ => trivial⟩
  rw [hread] at hagree
  cases hagree with
  | ok hst _ => exact hst.over.1

/-! ## Drafts -/

namespace Draft

/-- Two drafts of one blueprint, in the same section. -/
structure Alike (t t' : NameTable) (d d' : Draft) : Prop where
  depicted : ∃ B, d.Depicts t B ∧ d'.Depicts t' B
  sections : d.sections = d'.sections

/-- Two drafts took in the same: the drafts behind it are alike, and so is the fault, which is at
the end of the input only if the segment `ends` there. -/
structure TakenAlike (t t' : NameTable) (ends : Prop) (r r' : Option Fault × Draft) : Prop where
  fault : r.1 = r'.1
  draft : Alike t t' r.2 r'.2
  place : ∀ fault ∈ r.1, fault.place = .endOfInput → ends

variable {d d' : Draft}

theorem Alike.apply (h : Alike t t' d d') {st st' : Statement}
    (hst : st.Like (Word.Twin t t') st') :
    SameAnswer (Alike t t') (d.apply st) (d'.apply st') := by
  obtain ⟨⟨B, hB, hB'⟩, hsections⟩ := h
  obtain ⟨hover, hover', heq⟩ := hst.over
  have happly := hB.apply hover
  have happly' := hB'.apply hover'
  rw [← heq B] at happly'
  generalize d.apply st = x at happly ⊢
  generalize d'.apply st' = x' at happly' ⊢
  generalize B.apply st = y at happly happly'
  cases happly with
  | ok hd =>
    cases happly' with
    | ok hd' => exact .ok ⟨⟨_, hd.1, hd'.1⟩, hd.2.trans (hsections.trans hd'.2.symm)⟩
  | error =>
    cases happly' with
    | error => exact .error

/-- The place of a fault of a statement that was read is never the end of the input. -/
theorem place_of_apply {st : Statement} {fault : Fault} (h : d.apply st = .error fault) :
    fault.place ≠ .endOfInput := by
  unfold apply at h
  split at h <;> split at h <;> cases h
  · rename_i e _
    cases e <;> exact Place.noConfusion
  · rename_i e _
    cases e <;> exact Place.noConfusion
  · rename_i e _
    cases e <;> exact Place.noConfusion

/-- What taking in a statement answers. -/
def settleStatement (d : Draft) : Except Fault Draft → Option Fault × Draft
  | .ok d' => (none, d')
  | .error fault => (some fault, d)

theorem Alike.takeStatement (h : Alike t t' d d') (k : Keyword) (q : Position)
    {ts ts' : List Token} (hts : SameTokens t t' ends ts ts') :
    TakenAlike t t' ends (d.settleStatement (d.takeStatement k q ts))
      (d'.settleStatement (d'.takeStatement k q ts')) := by
  obtain ⟨B, hB, hB'⟩ := h.depicted
  unfold Draft.takeStatement
  rw [h.sections]
  split
  · have hread := (Lockstep.ofTables t t' ends).agree_read (hB.circuit.readAlike hB'.circuit) k hts
    generalize (Statement.read d.circuit k).runOn ts = r at hread ⊢
    generalize (Statement.read d'.circuit k).runOn ts' = r' at hread ⊢
    cases hread with
    | error _ hplace => exact ⟨rfl, h, fun fault hm hp => hplace (by cases hm; exact hp)⟩
    | @ok st st' _ _ hst _ =>
      have happly := h.apply hst
      have hplace : ∀ fault, d.apply st = .error fault → fault.place ≠ .endOfInput :=
        fun _ => place_of_apply
      simp only
      generalize d.apply st = x at happly hplace ⊢
      generalize d'.apply st' = x' at happly ⊢
      cases happly with
      | ok hd => exact ⟨rfl, hd, nofun⟩
      | error => exact ⟨rfl, h, fun fault hm hp => by cases hm; exact absurd hp (hplace _ rfl)⟩
  · exact ⟨rfl, h, fun fault hm hp => by cases hm; cases hp⟩

theorem Alike.enter (h : Alike t t' d d') (s : Section) (q : Position) :
    TakenAlike t t' ends (d.enter s q) (d'.enter s q) := by
  obtain ⟨⟨B, hB, hB'⟩, hsections⟩ := h
  unfold Draft.enter
  rw [hsections]
  generalize d'.sections.enter s = e
  obtain ⟨answer, sections⟩ := e
  refine ⟨rfl, ⟨⟨B, ⟨hB.circuit, hB.unused⟩, ⟨hB'.circuit, hB'.unused⟩⟩, rfl⟩,
    fun fault hm hp => ?_⟩
  cases answer with
  | ok => cases hm
  | error e =>
    cases hm
    cases hp

theorem Alike.takeHeading (h : Alike t t' d d') (s : Section) (q : Position)
    {ts ts' : List Token} (hts : SameTokens t t' ends ts ts') :
    TakenAlike t t' ends (d.takeHeading s q ts) (d'.takeHeading s q ts') := by
  have hcolon : (Lockstep.ofTables t t' ends).Agree _ _
      ((TokenReader.expect (TokenKind.only .colon) (.colonExpected s)).runOn ts)
      ((TokenReader.expect (TokenKind.only .colon) (.colonExpected s)).runOn ts') :=
    Lockstep.agree_expect (Lockstep.fitAlike_only (k := .colon) rfl) hts
  unfold Draft.takeHeading
  generalize (TokenReader.expect _ _).runOn ts = r at hcolon ⊢
  generalize (TokenReader.expect _ _).runOn ts' = r' at hcolon ⊢
  cases hcolon with
  | error _ hplace => exact ⟨rfl, h, fun fault hm hp => hplace (by cases hm; exact hp)⟩
  | ok _ _ => exact h.enter s q

end Draft

/-! ## Segments -/

namespace Chunk

theorem knows_tail {c : Chunk} (h : t.Knows c.lexemes) : t.Knows [c.head] ∧ t.Knows c.tail :=
  h.of_append.2.of_cons

theorem sameTokens_tail {c c' : Chunk} {p p' : Position} (h : t.Knows c.lexemes)
    (h' : t'.Knows c'.lexemes) (hhead : c'.head = c.head) (htail : c'.tail = c.tail)
    (hp : c'.headPosition p' = c.headPosition p) :
    SameTokens t t' (.mark ';' ∉ c.tail) (c.segmentOver t p).tail (c'.segmentOver t' p').tail := by
  have hk := (knows_tail h).2
  have hk' := (knows_tail h').2
  rw [htail] at hk'
  unfold segmentOver tailOver
  simp only [hhead, htail, hp]
  split
  · exact sameTokens_dropWhile hk hk' id
  · exact ⟨_, _, rfl, rfl, hk, hk', id⟩

/-- The tail of a title is read as its colon. -/
theorem runOn_expect_colon {c : Chunk} (hc : c.isTitle = true) (t : NameTable) (p : Position)
    (problem : Problem) : ∃ a, ((TokenReader.expect (TokenKind.only .colon) problem).runOn
      (c.segmentOver t p).tail).1 = .ok a := by
  have hcolon := Lexeme.dropWhile_eq_of_colonFollows ((Bool.and_eq_true _ _).mp hc).2
  have htail : ∃ q us, (c.segmentOver t p).tail = ⟨.colon, q⟩ :: us := by
    show ∃ q us, tailOver _ _ _ _ = _
    unfold tailOver
    rw [if_pos (show (c.head.isHeading && Lexeme.colonFollows c.tail) = true from hc),
      TokenStream.dropWhile_tokensOver, hcolon]
    exact ⟨_, _, rfl⟩
  obtain ⟨q, us, htail⟩ := htail
  rw [htail, TokenReader.runOn_expect]
  exact ⟨((), q), rfl⟩

/-- A title is taken in by entering its section. -/
theorem take_title {c : Chunk} (hc : c.isTitle = true) : ∃ s : Section,
    c.head = .word s.heading.toList ∧ ∀ (d : Draft) (t : NameTable) (p : Position),
      d.take (c.segmentOver t p) = d.enter s (c.headPosition p) := by
  obtain ⟨hhead, hcolon⟩ := (Bool.and_eq_true _ _).mp hc
  obtain ⟨text, hword⟩ : ∃ text, c.head = .word text := by
    cases hw : c.head with
    | word text => exact ⟨text, rfl⟩
    | _ => rw [hw] at hhead; cases hhead
  cases hclass : WordClass.ofText (String.ofList text) with
  | heading s =>
    have htext : text = s.heading.toList := by
      rw [← Vocabulary.ofText_eq_heading_iff.mp hclass, String.toList_ofList]
    refine ⟨s, by rw [hword, htext], fun d t p => ?_⟩
    have hkind : (c.segmentOver t p).head.kind = .heading s (Lexeme.wordOver t text) := by
      show c.head.kindOver t = _
      rw [hword]
      show TokenKind.ofWord _ (WordClass.ofText _) = _
      rw [hclass]
      rfl
    unfold Draft.take Draft.takeHeading
    rw [hkind]
    obtain ⟨a, ha⟩ := runOn_expect_colon hc t p (.colonExpected s)
    simp only [ha]
    rfl
  | _ =>
    rw [hword, Lexeme.isHeading, hclass] at hhead
    cases hhead

end Chunk

namespace Draft

variable {d d' : Draft} {c c' : Chunk} {p p' : Position}

theorem TakenAlike.imp {ends' : Prop} {r r' : Option Fault × Draft}
    (h : TakenAlike t t' ends r r') (hends : ends → ends') : TakenAlike t t' ends' r r' :=
  ⟨h.fault, h.draft, fun fault hm hp => hends (h.place fault hm hp)⟩

theorem Alike.take_token (h : Alike t t' d d') {k k' : TokenKind} (hk : k.Like (Word.Twin t t') k')
    (q : Position) {ts ts' : List Token} (hts : SameTokens t t' ends ts ts') :
    TakenAlike t t' (k ≠ .semicolon ∧ ends) (d.take ⟨⟨k, q⟩, ts⟩) (d'.take ⟨⟨k', q⟩, ts'⟩) := by
  have hstray : TakenAlike t t' (k ≠ .semicolon ∧ ends)
      (some ⟨.strayToken, .token q⟩, d) (some ⟨.strayToken, .token q⟩, d') :=
    ⟨rfl, h, fun fault hm hp => by cases hm; cases hp⟩
  cases hk with
  | heading => exact (h.takeHeading _ q hts).imp fun he => ⟨TokenKind.noConfusion, he⟩
  | keyword => exact (h.takeStatement _ q hts).imp fun he => ⟨TokenKind.noConfusion, he⟩
  | pin => exact hstray
  | name => exact hstray
  | number => exact hstray
  | plain hw => cases k <;> first | exact hstray | cases hw

/-- **A segment does the same to drafts of one blueprint**, wherever its white space starts. -/
theorem Alike.take (h : Alike t t' d d') (hk : t.Knows c.lexemes) (hk' : t'.Knows c'.lexemes)
    (hhead : c'.head = c.head) (htail : c'.tail = c.tail)
    (hp : c'.headPosition p' = c.headPosition p) :
    TakenAlike t t' c.Open (d.take (c.segmentOver t p)) (d'.take (c'.segmentOver t' p')) := by
  cases hc : c.isTitle with
  | true =>
    obtain ⟨s, hword, htake⟩ := Chunk.take_title hc
    have hc' : c'.isTitle = true := by
      unfold Chunk.isTitle at hc ⊢
      rw [hhead, htail]
      exact hc
    obtain ⟨s', hword', htake'⟩ := Chunk.take_title hc'
    have hs : s'.heading.toList = s.heading.toList := by
      rw [hhead, hword] at hword'
      exact (Lexeme.word.inj hword').symm
    rw [htake, htake', hp, Vocabulary.heading_inj (String.toList_injective hs)]
    exact h.enter s _
  | false =>
    have hkind := Lexeme.kindOver_like (Chunk.knows_tail hk).1 (hhead ▸ (Chunk.knows_tail hk').1)
    have htaken := h.take_token hkind (c.headPosition p)
      (Chunk.sameTokens_tail hk hk' hhead htail hp)
    have hsegment : c'.segmentOver t' p' =
        ⟨⟨c.head.kindOver t', c.headPosition p⟩, (c'.segmentOver t' p').tail⟩ := by
      rw [← hhead, ← hp]
      rfl
    rw [hsegment]
    exact htaken.imp fun he =>
      ⟨hc, mt Lexeme.kindOver_eq_semicolon_iff.mpr he.1, he.2⟩

end Draft

end Netlist
