import Netlist.Proofs.Ending
import Netlist.Proofs.Wording

/-!
# Messages right behind a token

Behind the name of a D-type, behind the name of a device that an output is connected to, and behind
the dot of either, the next token has to follow at once. A message that it does not points at the
character right behind, whatever stands there: the token that is read there starts with it, white
space and comments included, and at the end of the input the place behind the last text is the same.

## Results

* `Reading.Reads.exists_behind`: where a fault at the token behind another one points.
* `Session.adjacent_read`: **a message about what has to follow a token points right behind it.**
-/

namespace Netlist

open Lexeme (ofText nextChunk? tokensOver)

/-! ## Tokens and their texts -/

/-- The text of a name or a dot. -/
def TokenKind.text? : TokenKind → Option (List Char)
  | .name w => some w.text.toList
  | .dot => some ['.']
  | _ => none

namespace Lexeme

variable {t : NameTable} {p : Position} {ls : List Lexeme}

/-- Tokens in front are those of lexemes in front. -/
theorem exists_of_tokensOver_eq_append {ts us : List Token} (h : tokensOver t p ls = ts ++ us) :
    ∃ as bs, ls = as ++ bs ∧ us = tokensOver t (p.after (as.flatMap text)) bs := by
  induction ts generalizing p ls with
  | nil => exact ⟨[], ls, rfl, h.symm⟩
  | cons k ts ih =>
    cases ls with
    | nil => cases h
    | cons l ls =>
      rw [tokensOver_cons, List.cons_append] at h
      obtain ⟨as, bs, rfl, hus⟩ := ih (List.cons.inj h).2
      exact ⟨l :: as, bs, rfl, by rw [hus, List.flatMap_cons, Position.after_append]⟩

/-- A lexeme that is read as a name or a dot has its text. -/
theorem text_of_kindOver {l : Lexeme} {text : List Char} (h : (l.kindOver t).text? = some text) :
    l.text = text ∧ l.isBlank = false := by
  cases hk : l.kindOver t with
  | name w =>
    rw [hk] at h
    obtain ⟨name, -, rfl, rfl⟩ := name?_kindOver_iff.mp (by rw [hk]; rfl)
    exact ⟨Option.some.inj h, rfl⟩
  | dot =>
    rw [hk] at h
    obtain rfl := (kindOver_eq_iff (k := .dot) rfl).mp hk
    exact ⟨Option.some.inj h, rfl⟩
  | _ => rw [hk] at h; cases h

end Lexeme

theorem ReadAs.exists_last {ks : List TokenKind} {ts : List Token} (h : ReadAs ks ts)
    (hks : ks ≠ []) : ∃ us t, ts = us ++ [t] ∧ ks.getLast? = some t.kind := by
  cases h with
  | nil => exact absurd rfl hks
  | snoc => exact ⟨_, _, rfl, by rw [List.getLast?_concat]⟩

/-- What has to be followed at once is a name or a dot. -/
theorem Problem.Glued.exists_text {problem : Problem} {ks : List TokenKind}
    (h : problem.Glued ks) : ∃ k text, ks.getLast? = some k ∧ k.text? = some text := by
  cases h with
  | dtypeDot => exact ⟨_, _, rfl, rfl⟩
  | dtypePin => exact ⟨_, _, rfl, rfl⟩
  | inputDot => exact ⟨_, _, List.getLast?_concat, rfl⟩
  | inputPin => exact ⟨_, _, List.getLast?_concat, rfl⟩

/-! ## Places -/

theorem Position.after_ofPrefix (as bs : List Char) :
    (ofPrefix as).after bs = .ofPrefix (as ++ bs) := by
  rw [← after_start, ← after_append, after_start]

/-- A heading is no keyword, so the lexemes of a statement are not those of a title. -/
theorem Chunk.isTitle_of_keyword {c : Chunk} {t : NameTable} {k : Keyword} {w : Word}
    (h : c.head.kindOver t = .keyword k w) : c.isTitle = false := by
  have hheading : c.head.isHeading = false := Bool.eq_false_iff.mpr fun hc => by
    obtain ⟨s, v, hkind⟩ := (Lexeme.isHeading_iff (t := t)).mp hc
    rw [h] at hkind
    cases hkind
  unfold isTitle
  rw [hheading, Bool.false_and]

/-- Where a text ends with a token, the place behind the last text is that behind the token. -/
theorem Lexeme.behindText_of_last {cs : List Char} {before : List Lexeme} {l : Lexeme}
    (h : ofText cs = before ++ [l]) (hblank : l.isBlank = false) :
    Position.start.behindText cs = some (.ofPrefix cs) := by
  have hmem : l ∈ ofText cs := by
    rw [h]
    exact List.mem_append_right _ List.mem_cons_self
  obtain ⟨front, d, hd⟩ := List.eq_nil_or_concat' l.text |>.resolve_left (text_ne_nil_of_mem hmem)
  have hshows : Text.isBlank d = false := not_blank_of_mem hmem hblank (by simp [hd])
  have hcs : cs = (before.flatMap text ++ front) ++ [d] := by
    rw [← flatMap_text_ofText cs, h, List.flatMap_append, List.flatMap_singleton, hd,
      List.append_assoc]
  rw [hcs, Position.behindText_append_cons _ hshows fun b hb => absurd hb List.not_mem_nil,
    Position.after_start]

/-- An excerpt points right behind a token with the text `text` in a source. -/
def Excerpt.RightBehind (source text : List Char) (t : Token) (e : Excerpt) : Prop :=
  ∃ front rest, source = front ++ (text ++ rest) ∧ t.position = .ofPrefix front ∧
    e.position = .ofPrefix (front ++ text)

namespace Reading

variable {source : String} {r : Reading} {g : Segment} {stream : TokenStream} {fault : Fault}

/-- What stands in front of a lexeme of the next segment. -/
theorem Reads.exists_before (h : r.Reads source) {c : Chunk} {rest as bs : List Lexeme} {l : Lexeme}
    (hc : nextChunk? r.stream.pending = some (c, rest)) (htail : c.tail = as ++ l :: bs) :
    ∃ before, ofText source.toList = before ++ l :: (bs ++ rest) ∧
      ((c.headPosition r.stream.position).after c.head.text).after (as.flatMap Lexeme.text) =
        .ofPrefix (before.flatMap Lexeme.text) := by
  obtain ⟨ls, hls, hposition⟩ := h.left
  refine ⟨ls ++ (c.blank ++ c.head :: as), ?_, ?_⟩
  · rw [hls, ← Lexeme.lexemes_append_of_nextChunk? hc, Chunk.lexemes, htail]
    simp
  · unfold Chunk.headPosition
    rw [hposition, Position.after_ofPrefix, Position.after_ofPrefix, Position.after_ofPrefix]
    simp

/-- **Where a fault at the token behind another one points**: at the character right behind that,
and so does a fault at the end of the input if there is no token behind. -/
theorem Reads.exists_behind (h : r.Reads source) (hg : r.stream.segment? = some (g, stream))
    (hfault : (r.draft.take g).1 = some fault) {k : Keyword} {w : Word}
    (hhead : g.head.kind = .keyword k w) {passed left : List Token} {t : Token} {text : List Char}
    (htail : g.tail = passed ++ t :: left) (htext : t.kind.text? = some text)
    (hplace : fault.place = .ofToken? left.head?) :
    ∃ e, r.log.excerpt fault.place = some e ∧ e.RightBehind source.toList text t := by
  rw [TokenStream.segment?_eq h.sound NameTable.le_rfl] at hg
  obtain ⟨⟨c, rest⟩, hc, he⟩ := Option.map_eq_some_iff.mp hg
  obtain ⟨rfl, rfl⟩ := Prod.mk.inj he
  rw [Chunk.tail_segmentOver (Chunk.isTitle_of_keyword hhead)] at htail
  obtain ⟨as, ms, hms, hleft⟩ := Lexeme.exists_of_tokensOver_eq_append htail
  obtain ⟨l, bs, rfl⟩ : ∃ l bs, ms = l :: bs := List.exists_cons_of_ne_nil fun hnil => by
    rw [hnil] at hleft
    cases hleft
  rw [Lexeme.tokensOver_cons] at hleft
  obtain ⟨rfl, rfl⟩ := List.cons.inj hleft
  obtain ⟨rfl, hblank⟩ := Lexeme.text_of_kindOver htext
  obtain ⟨before, hlexemes, hfront⟩ := h.exists_before hc hms
  have hsource : source.toList =
      before.flatMap Lexeme.text ++ (l.text ++ (bs ++ rest).flatMap Lexeme.text) := by
    rw [← Lexeme.flatMap_text_ofText source.toList, hlexemes, List.flatMap_append,
      List.flatMap_cons]
  suffices hends : ∃ e, r.log.excerpt fault.place = some e ∧
      e.position = .ofPrefix (before.flatMap Lexeme.text ++ l.text) by
    obtain ⟨e, he, hat⟩ := hends
    exact ⟨e, he, _, _, hsource, hfront, hat⟩
  cases bs with
  | cons m ms =>
    refine ⟨_, by rw [hplace]; rfl, ?_⟩
    rw [hfront]
    exact Position.after_ofPrefix _ _
  | nil =>
    obtain rfl := (Draft.open_of_endOfInput hfault hplace).rest_eq_nil hc
    have hend : Place.endOfInput.position? source.toList = some (.ofPrefix source.toList) :=
      Lexeme.behindText_of_last hlexemes hblank
    have hat := DiagnosticLog.position_excerpt h.lines fault.place
    rw [show fault.place = .endOfInput from hplace] at hat ⊢
    rw [hend, hsource, List.append_nil, List.flatMap_nil, List.append_nil] at hat
    exact Option.map_eq_some_iff.mp hat

end Reading

/-! ## Diagnostics -/

/-- The faults at the token behind another one are those of statements that cannot be read. -/
theorem Draft.Faulty.exists_glued {d : Draft} {g : Segment} {fault : Fault}
    {ks : List TokenKind} (h : d.Faulty g fault) (hglued : fault.problem.Glued ks) :
    ∃ k w ks passed left, g.head.kind = .keyword k w ∧ g.tail = passed ++ left ∧
      ReadAs ks passed ∧ fault.problem.Glued ks ∧ fault.place = .ofToken? left.head? := by
  obtain ⟨problem, place⟩ := fault
  cases h with
  | stray => cases hglued
  | bare => cases hglued
  | misplaced => cases hglued
  | outside => cases hglued
  | unread head refusal =>
    cases refusal with
    | loose hloose => cases hglued <;> cases hloose
    | glued tokens read found place => exact ⟨_, _, _, _, _, head, tokens, read, found, place⟩
  | refused _ _ refusal =>
    have hrefused : problem.Refused := refusal.refused
    cases hglued <;> cases hrefused

/-- A diagnostic about what has to follow a token of a statement, in a reading: the statement is of
the segment `g`, `passed` and `t` are its tokens read so far, and the diagnostic points right behind
`t`. -/
inductive Reading.Misses (r : Reading) (source : String) (problem : Problem) (d : Diagnostic) : Prop
  | intro {gs : List Segment} {mid : Reading} {g : Segment} {stream : TokenStream}
      {ks : List TokenKind} {passed left : List Token} {t : Token} {text : List Char} {e : Excerpt}
      (passes : r.Passes gs mid) (next : mid.stream.segment? = some (g, stream))
      (report : (mid.takeSegment g stream).log.diagnostics = mid.log.diagnostics ++ [d])
      (tokens : g.tail = passed ++ t :: left) (read : ReadAs ks (passed ++ [t]))
      (glued : problem.Glued ks) (spelled : t.kind.text? = some text)
      (excerpt : d.excerpt = some e) (behind : e.RightBehind source.toList text t) :
      Misses r source problem d

/-- **A message about what has to follow a token points right behind it**: at the position of the
next character, whatever that is, in every definition and whatever was read before. -/
theorem Session.adjacent_read (s : Session) (source : String) (limit : Option Nat)
    {problem : Problem} {ks : List TokenKind} (hglued : problem.Glued ks) {d : Diagnostic}
    (hd : d ∈ (s.read source limit).parse.2.log.diagnostics)
    (hmessage : d.message = problem.message) : (s.read source limit).Misses source problem d := by
  rcases (s.read source limit).reports_readOn hd with hd | hreports
  · cases hd
  cases hreports with
  | omission ends missing =>
    obtain rfl := Problem.eq_of_message hglued hmessage
    rcases Draft.mem_omissions missing with ⟨s, rfl⟩ | rfl | rfl <;> cases hglued
  | fault passes next faulty =>
    obtain rfl := Problem.eq_of_message hglued hmessage
    obtain ⟨k, w, ks, passed, left, hhead, htail, hread, hglued, hplace⟩ :=
      (Draft.faulty_take faulty).exists_glued hglued
    obtain ⟨kind, text, hlast, htext⟩ := hglued.exists_text
    obtain ⟨us, t, rfl, hkind⟩ := hread.exists_last (by rintro rfl; cases hlast)
    obtain rfl := Option.some.inj (hlast.symm.trans hkind)
    rw [List.append_assoc] at htail
    obtain ⟨e, he, hbehind⟩ := ((Reading.reads_start source _ _ limit).passes passes).exists_behind
      next faulty hhead htail htext hplace
    refine .intro passes next ?_ htail hread hglued htext he hbehind
    rw [Reading.log_takeSegment, faulty]
    rfl

/-- Behind a name at the end of a line, the message points at the line break. -/
theorem Session.adjacent_read_break :
    let source := "DEVICE:\nDTYPE f;\nCONNECTION:\nCON f\n.Q -> f.DATA;"
    let problem := Problem.dtypeDotExpected "f"
    ((Session.start []).read source none).Misses source problem
      ⟨1, problem.message, some ⟨4, 6, "CON f"⟩⟩ :=
  Session.adjacent_read (Session.start []) _ none (.dtypeDot : Problem.Glued [.name ⟨0, "f"⟩] _)
    (by decide +kernel) rfl

end Netlist
