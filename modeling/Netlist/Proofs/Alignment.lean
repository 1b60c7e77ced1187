import Netlist.Proofs.Lines
import Netlist.Proofs.Pointing

/-!
# Excerpts line up with the source

A diagnostic shows the line that it points into, with a caret under the column. The line is one of
the source, the column is one of its characters or the one behind the last, and under a token stands
its first character.

## Results

* `Excerpt.exists_padding`: what stands in front of the caret.
* `Place.Marks.aligned`: what a message shows that points into a source.
* `DiagnosticLog.shows_of_excerpt`: under a token stands its first character.
* `Session.aligned_read`: **every excerpt of a reading lines up with the source.**
-/

namespace Netlist

open Lexeme (ofText)
open Text (IsLine lastLine lines)

/-! ## The caret -/

/-- In front of the caret stands one character for each column, a tab under a tab. -/
theorem Excerpt.exists_padding (e : Excerpt) : ∃ padding, e.caretLine.toList = padding ++ ['^'] ∧
    padding.length = e.column - 1 ∧ ∀ i < e.column - 1,
      padding[i]? = some (if e.text.toList[i]? = some '\t' then '\t' else ' ') := by
  refine ⟨e.padding, String.toList_ofList, ?_, fun i hi => ?_⟩
  · unfold padding
    rw [List.length_rightpad, List.length_map, List.length_take]
    omega
  · unfold padding List.rightpad
    rw [List.getElem?_append, List.length_map, List.length_take]
    by_cases hlen : i < e.text.toList.length
    · rw [if_pos (Nat.lt_min.mpr ⟨hi, hlen⟩), List.getElem?_map, List.getElem?_take, if_pos hi,
        List.getElem?_eq_getElem hlen, Option.map_some]
      simp only [Option.some.injEq]
    · rw [if_neg fun h => hlen (Nat.lt_min.mp h).2, List.getElem?_eq_none (Nat.not_lt.mp hlen),
        List.getElem?_replicate, if_pos (by omega), if_neg nofun]

/-! ## Characters of lexemes -/

theorem Text.not_isBlank_of_isAlphanum {c : Char} (h : c.isAlphanum = true) :
    isBlank c = false := by
  rw [Bool.eq_false_iff]
  intro hc
  rw [isAlphanum_of_isBlank hc] at h
  cases h

namespace Lexeme

/-- A lexeme that is not white space has no blank character. -/
theorem not_blank_of_mem {cs : List Char} {l : Lexeme} (hl : l ∈ ofText cs)
    (hb : l.isBlank = false) {c : Char} (hc : c ∈ l.text) : Text.isBlank c = false := by
  fun_induction ofText cs with
  | case1 => cases hl
  | case2 d ds ih =>
    rcases List.mem_cons.mp hl with rfl | hl
    · have hd : ¬(Text.isBlank d || d = '#') = true := by
        rw [← isBlank_first d ds, hb]
        exact Bool.false_ne_true
      obtain ⟨hdblank, -⟩ : Text.isBlank d = false ∧ d ≠ '#' := by simpa using hd
      unfold first at hc
      rw [if_neg hd] at hc
      split at hc
      · rcases List.mem_cons.mp hc with rfl | hc
        · exact hdblank
        · exact Text.not_isBlank_of_isAlphanum (List.mem_takeWhile_imp hc)
      · split at hc
        · rcases List.mem_cons.mp hc with rfl | hc
          · exact hdblank
          · have hdigit : c.isDigit = true := List.mem_takeWhile_imp hc
            refine Text.not_isBlank_of_isAlphanum ?_
            rw [Char.isAlphanum, hdigit, Bool.or_true]
        · split at hc
          · have harrow : c = '-' ∨ c = '>' := by simpa [text] using hc
            rcases harrow with rfl | rfl <;> decide
          · obtain rfl := List.mem_singleton.mp hc
            exact hdblank
    · exact ih hl

end Lexeme

/-! ## Places -/

/-- An excerpt that lines up with its source. -/
structure Excerpt.Aligned (source : List Char) (e : Excerpt) : Prop where
  /-- Lines are counted from 1. -/
  line_pos : 1 ≤ e.line
  line_le : e.line ≤ (lines source).length
  text : IsLine source (e.line - 1) e.text.toList
  /-- Columns are counted from 1, up to the one behind the line. -/
  column_pos : 1 ≤ e.column
  column_le : e.column ≤ e.text.length + 1

/-- An excerpt of a line lines up with the source where its column is one of the line, or the one
behind it. -/
theorem Excerpt.aligned_of_getElem? {source line : List Char} {e : Excerpt} {n : Nat}
    (hline : (lines source)[n]? = some line) (hn : e.line = n + 1)
    (htext : e.text = String.ofList line) (hpos : 1 ≤ e.column)
    (hle : e.column ≤ line.length + 1) : e.Aligned source where
  line_pos := by omega
  line_le := by
    rw [hn]
    exact (List.getElem?_eq_some_iff.mp hline).1
  text := by
    rw [hn, htext, String.toList_ofList]
    exact Text.isLine_of_getElem? hline
  column_pos := hpos
  column_le := by
    rw [htext, String.length_ofList]
    exact hle

theorem DiagnosticLog.lineText_ofSource {source : String} {n : Nat} {line : List Char}
    (h : (Text.lines source.toList)[n]? = some line) :
    (ofSource source).lineText (n + 1) = String.ofList line := by
  show (((Text.lines source.toList).map String.ofList)[n]?).getD "" = _
  rw [List.getElem?_map, h]
  rfl

theorem Text.length_lastLine_append_singleton (before : List Char) {c : Char} (hc : c ≠ '\n') :
    (lastLine (before ++ [c])).length = (lastLine before).length + 1 := by
  have hnext : Position.ofPrefix (before ++ [c]) = (Position.ofPrefix before).next c := by
    rw [← Position.after_start, Position.after_append, Position.after_start]
    rfl
  have hcolumn := congrArg Position.column hnext
  rw [Position.next, if_neg hc, column_ofPrefix] at hcolumn
  have hbefore := column_ofPrefix before
  simp only at hcolumn
  omega

theorem Text.ne_newline_of_not_isBlank {c : Char} (h : isBlank c = false) : c ≠ '\n' := by
  rintro rfl
  cases h

theorem Text.ne_return_of_not_isBlank {c : Char} (h : isBlank c = false) : c ≠ '\r' := by
  rintro rfl
  cases h

/-- Next to a character that is not blank, a place is in the line of the character, or right behind
it. -/
theorem Text.exists_line {before rest : List Char} {c : Char} (hblank : isBlank c = false)
    (hnext : before.getLast? = some c ∨ rest.head? = some c) :
    ∃ line, (lines (before ++ rest))[before.count '\n']? = some line ∧
      (lastLine before).length ≤ line.length := by
  have hn := ne_newline_of_not_isBlank hblank
  have hr := ne_return_of_not_isBlank hblank
  rcases hnext with hlast | hhead
  · obtain ⟨front, rfl⟩ := List.getLast?_eq_some_iff.mp hlast
    obtain ⟨tail, htail⟩ := getElem?_lines_append front hn hr rest
    refine ⟨lastLine front ++ c :: tail, ?_, ?_⟩
    · rw [List.append_assoc, List.count_append, List.count_singleton, if_neg (by simpa using hn)]
      exact htail
    · rw [length_lastLine_append_singleton front hn, List.length_append, List.length_cons]
      omega
  · obtain ⟨rest, rfl⟩ := List.head?_eq_some_iff.mp hhead
    obtain ⟨tail, htail⟩ := getElem?_lines_append before hn hr rest
    exact ⟨_, htail, by rw [List.length_append]; exact Nat.le_add_right _ _⟩

/-- A message about the end of the input shows a line of the source, up to its last text. -/
theorem DiagnosticLog.exists_of_endExcerpt {log : DiagnosticLog} {e : Excerpt}
    (h : log.endExcerpt = some e) : ∃ n, e.line = n + 1 ∧ log.lines[n]? = some e.text ∧
      e.column = (Text.trimEnd e.text.toList).length + 1 := by
  obtain ⟨⟨text, n⟩, hlast, rfl⟩ := Option.map_eq_some_iff.mp h
  exact ⟨n, rfl, List.mem_zipIdx_iff_getElem?.mp
    (List.mem_reverse.mp (List.mem_of_find?_eq_some hlast)), rfl⟩

/-- The excerpt of a place has the text of its line. -/
theorem DiagnosticLog.text_of_excerpt {log : DiagnosticLog} {place : Place} {e : Excerpt}
    (h : log.excerpt place = some e) : e.text = log.lineText e.line := by
  cases place with
  | token p =>
    obtain rfl := Option.some.inj h
    rfl
  | endOfInput =>
    obtain ⟨n, hline, hget, -⟩ := exists_of_endExcerpt h
    rw [hline]
    show e.text = (log.lines[n]?).getD ""
    rw [hget]
    rfl

theorem Text.length_trimEnd_le (cs : List Char) : (trimEnd cs).length ≤ cs.length := by
  unfold trimEnd
  rw [List.length_reverse]
  exact (List.dropWhile_sublist _).length_le.trans_eq List.length_reverse

/-- A lexeme that can be pointed at has text at its front, or right before it. -/
theorem Lexeme.exists_next {cs : List Char} {as bs : List Lexeme} {l : Lexeme}
    (h : ofText cs = as ++ l :: bs) (front : l.isBlank = true → as ≠ []) :
    ∃ c, Text.isBlank c = false ∧ ((as.flatMap text).getLast? = some c ∨
      ((l :: bs).flatMap text).head? = some c) := by
  cases hl : l.isBlank with
  | false =>
    have hmem : l ∈ ofText cs := by
      rw [h]
      exact List.mem_append_right _ List.mem_cons_self
    obtain ⟨c, ds, htext⟩ := List.exists_cons_of_ne_nil (text_ne_nil_of_mem hmem)
    refine ⟨c, not_blank_of_mem hmem hl (by rw [htext]; exact List.mem_cons_self), .inr ?_⟩
    rw [List.flatMap_cons, htext]
    rfl
  | true =>
    obtain ⟨as, m, rfl⟩ := List.eq_nil_or_concat'  as |>.resolve_left (front hl)
    have hmem : m ∈ ofText cs := by
      rw [h]
      simp
    -- White space does not follow white space.
    have hm : m.isBlank = false := by
      rw [Bool.eq_false_iff]
      intro hm
      obtain ⟨w, rfl⟩ := isBlank_iff.mp hm
      rw [List.append_assoc] at h
      rw [isBlank_of_cons_cons (ofText_of_append h)] at hl
      cases hl
    have hlast := List.getLast?_eq_some_getLast (text_ne_nil_of_mem hmem)
    refine ⟨_, not_blank_of_mem hmem hm (List.mem_of_getLast? hlast), .inl ?_⟩
    rw [List.flatMap_append, List.flatMap_singleton, List.getLast?_append, hlast]
    rfl

/-- **What a message shows that points into a source** is a line of it, and the column is in it. -/
theorem Place.Marks.aligned {source : String} {place : Place} {e : Excerpt}
    (h : place.Marks source.toList)
    (he : (DiagnosticLog.ofSource source).excerpt place = some e) : e.Aligned source.toList := by
  cases h with
  | @token as bs l lexemes front =>
    obtain ⟨c, hblank, hnext⟩ := Lexeme.exists_next lexemes front
    obtain ⟨line, hline, hle⟩ := Text.exists_line hblank hnext
    rw [← List.flatMap_append, ← lexemes, Lexeme.flatMap_text_ofText] at hline
    obtain rfl := Option.some.inj he
    have hcolumn := Text.column_ofPrefix (as.flatMap Lexeme.text)
    refine Excerpt.aligned_of_getElem? hline (Nat.add_comm _ _) ?_ (Nat.le_add_right _ _) ?_
    · rw [← DiagnosticLog.lineText_ofSource hline, Nat.add_comm]
      rfl
    · show (Position.ofPrefix (as.flatMap Lexeme.text)).column ≤ line.length + 1
      omega
  | endOfInput shows =>
    obtain ⟨n, hn, hget, hcolumn⟩ := DiagnosticLog.exists_of_endExcerpt he
    rw [DiagnosticLog.ofSource, List.getElem?_map] at hget
    obtain ⟨line, hline, htext⟩ := Option.map_eq_some_iff.mp hget
    rw [← htext, String.toList_ofList] at hcolumn
    have hle := Text.length_trimEnd_le line
    exact Excerpt.aligned_of_getElem? hline hn htext.symm (by omega) (by omega)

/-! ## The character of a token -/

/-- The first character of a token that is not white space ends no line. -/
theorem Scans.exists_head {t : NameTable} {kind : TokenKind} {text input : List Char}
    (h : Scans t kind text input) (hkind : kind ≠ .space) :
    ∃ c cs, text = c :: cs ∧ Text.isBlank c = false := by
  cases h with
  | space => exact absurd rfl hkind
  | word run _ =>
    obtain ⟨c, cs, rfl, hc, -⟩ := run.fits
    refine ⟨c, cs, rfl, Text.not_isBlank_of_isAlphanum ?_⟩
    rw [Char.isAlphanum, hc, Bool.true_or]
  | number run _ =>
    obtain ⟨hsome, hdigits⟩ := run.fits
    obtain ⟨c, cs, rfl⟩ := List.exists_cons_of_ne_nil hsome
    refine ⟨c, cs, rfl, Text.not_isBlank_of_isAlphanum ?_⟩
    rw [Char.isAlphanum, hdigits c List.mem_cons_self, Bool.or_true]
  | malformed blank => exact ⟨_, _, rfl, blank⟩
  | _ => exact ⟨_, _, rfl, by decide⟩

/-- The text of a token among those that a text is read as. -/
theorem Scanned.exists_of_mem {t : NameTable} {before cs : List Char} {ks : List Token} {k : Token}
    (h : Scanned t before ks cs) (hk : k ∈ ks) :
    ∃ passed text rest, cs = passed ++ (text ++ rest) ∧ Scans t k.kind text (text ++ rest) ∧
      k.position = .ofPrefix (before ++ passed) := by
  induction h with
  | nil => cases hk
  | @cons before text rest k' ks _ scans position _ ih =>
    rcases List.mem_cons.mp hk with rfl | hk
    · exact ⟨[], text, rest, rfl, scans, by rw [List.append_nil]; exact position⟩
    · obtain ⟨passed, text', rest', rfl, hscans, hposition⟩ := ih hk
      exact ⟨text ++ passed, text', rest', (List.append_assoc _ _ _).symm, hscans, by
        rw [hposition, List.append_assoc]⟩

/-- An excerpt that shows a token: if the token is not white space, its first character stands at
the column. -/
def Excerpt.Shows (t : NameTable) (source : List Char) (e : Excerpt) (k : Token) : Prop :=
  ∃ before text rest, source = before ++ (text ++ rest) ∧ k.position = .ofPrefix before ∧
    Scans t k.kind text (text ++ rest) ∧
    (k.kind ≠ .space → e.text.toList[e.column - 1]? = text.head?)

/-- **An excerpt shows the token that it points at.** -/
theorem DiagnosticLog.shows_of_excerpt {source : String} {t : NameTable} {ks : List Token}
    {k : Token} {place : Place} {e : Excerpt} (h : Scanned t [] ks source.toList) (hk : k ∈ ks)
    (he : (ofSource source).excerpt place = some e) (hposition : k.position = e.position) :
    e.Shows t source.toList k := by
  obtain ⟨before, text, rest, hsource, hscans, hbefore⟩ := h.exists_of_mem hk
  rw [List.nil_append] at hbefore
  refine ⟨before, text, rest, hsource, hbefore, hscans, fun hkind => ?_⟩
  obtain ⟨c, cs, rfl, hblank⟩ := hscans.exists_head hkind
  obtain ⟨tail, htail⟩ := Text.getElem?_lines_append before (Text.ne_newline_of_not_isBlank hblank)
    (Text.ne_return_of_not_isBlank hblank) (cs ++ rest)
  have hlines : (Text.lines source.toList)[before.count '\n']? =
      some (lastLine before ++ c :: tail) := by
    rw [hsource]
    exact htail
  rw [hbefore] at hposition
  have hline : e.line = before.count '\n' + 1 := by
    rw [Nat.add_comm]
    exact (congrArg Position.line hposition).symm
  have hcolumn : e.column = 1 + (lastLine before).length := by
    rw [← Text.column_ofPrefix, hposition]
    rfl
  rw [text_of_excerpt he, hline, lineText_ofSource hlines, String.toList_ofList, hcolumn,
    Nat.add_sub_cancel_left, List.getElem?_append_right (Nat.le_refl _), Nat.sub_self]
  rfl

/-- A place of a source is that of one of its tokens, or of the end. -/
theorem Place.Marks.exists_token {source : List Char} {place : Place} (h : place.Marks source)
    (t : NameTable) : ∃ offender : Option Token, place = .ofToken? offender ∧
      ∀ k ∈ offender, k ∈ Lexeme.tokensOver t .start (ofText source) := by
  cases h with
  | @token as bs l lexemes _ =>
    refine ⟨some ⟨l.kindOver t, .ofPrefix (as.flatMap Lexeme.text)⟩, rfl, ?_⟩
    rintro k ⟨⟩
    rw [lexemes, Lexeme.tokensOver_append, Position.after_start]
    exact List.mem_append_right _ List.mem_cons_self
  | endOfInput => exact ⟨none, rfl, nofun⟩

/-! ## Readings -/

theorem Reading.lines_complete (r : Reading) : r.complete.log.lines = r.log.lines := by
  show (((r.draft.omissions r.names r.clean).foldl
    (fun log p => log.reportGlobal p.message) r.log).lines) = _
  generalize r.log = log
  induction r.draft.omissions r.names r.clean generalizing log with
  | nil => rfl
  | cons p ps ih => exact ih _

theorem DiagnosticLog.excerpt_congr {log log' : DiagnosticLog} (h : log.lines = log'.lines)
    (place : Place) : log.excerpt place = log'.excerpt place := by
  cases place <;> simp only [excerpt, endExcerpt, lineText, h]

/-- A reading whose excerpts are those of places of the source. -/
structure Reading.Placed (source : String) (r : Reading) : Prop where
  reads : r.Reads source
  places : ∀ d ∈ r.log.diagnostics, ∀ e ∈ d.excerpt, ∃ place : Place,
    place.Marks source.toList ∧ (DiagnosticLog.ofSource source).excerpt place = some e

namespace Reading

variable {source : String} {r : Reading} {g : Segment} {stream : TokenStream}

theorem placed_start (source : String) (names : NameTable) (c : Circuit) (limit : Option Nat) :
    (start source names c limit).Placed source := ⟨reads_start source names c limit, nofun⟩

/-- A segment adds the excerpt of a place. -/
theorem Placed.takeSegment (h : r.Placed source) (hg : r.stream.segment? = some (g, stream)) :
    (r.takeSegment g stream).Placed source where
  reads := h.reads.takeSegment hg
  places := by
    rw [log_takeSegment]
    cases hfault : (r.draft.take g).1 with
    | none => exact h.places
    | some fault =>
      obtain ⟨hmarks, -⟩ := h.reads.exists_excerpt hg hfault
      intro d hd e he
      rcases List.mem_append.mp hd with hd | hd
      · exact h.places d hd e he
      · obtain rfl := List.mem_singleton.mp hd
        exact ⟨fault.place, hmarks, (DiagnosticLog.excerpt_congr h.reads.lines.symm _).trans he⟩

/-- The checks at the end of the input add no excerpts. -/
theorem Placed.complete (h : r.Placed source) : r.complete.Placed source where
  reads := ⟨h.reads.sound, h.reads.left, r.lines_complete.trans h.reads.lines⟩
  places d hd e he := by
    rw [diagnostics_complete_eq] at hd
    rcases List.mem_append.mp hd with hd | hd
    · exact h.places d hd e he
    · obtain ⟨i, _, rfl⟩ := List.mem_mapIdx.mp hd
      cases he

/-- **Every excerpt of a reading is that of a place of the source.** -/
theorem Placed.parse (h : r.Placed source) : r.parse.2.Placed source :=
  parse_induction (P := (·.Placed source)) r (fun _ _ _ hg h => h.takeSegment hg)
    (fun _ h => h.complete) (fun _ h => ⟨⟨h.reads.sound, h.reads.left, h.reads.lines⟩, h.places⟩) h

end Reading

/-- An excerpt that lines up with a source, of which `read` are the tokens, white space included,
and the stream behind them. -/
structure Excerpt.LinesUp (source : String) (read : List Token × TokenStream) (e : Excerpt) : Prop
    extends e.Aligned source.toList where
  /-- It points at a token of the source, or at its end. -/
  offender : ∃ offender : Option Token, (∀ k ∈ offender, k ∈ read.1) ∧
    (DiagnosticLog.ofSource source).excerpt (.ofToken? offender) = some e
  shows : ∀ k ∈ read.1, k.position = e.position → e.Shows read.2.names source.toList k
  caret : ∃ padding, e.caretLine.toList = padding ++ ['^'] ∧ padding.length = e.column - 1 ∧
    ∀ i < e.column - 1,
      padding[i]? = some (if e.text.toList[i]? = some '\t' then '\t' else ' ')

/-- **Every excerpt of a reading lines up with the source**, whatever was read before. -/
theorem Session.aligned_read (s : Session) (source : String) (limit : Option Nat) :
    ∀ d ∈ (s.read source limit).parse.2.log.diagnostics, ∀ e ∈ d.excerpt,
      e.LinesUp source (TokenStream.ofSource source s.names).rawAll := by
  intro d hd e he
  have hplaced : (s.read source limit).parse.2.Placed source :=
    (Reading.placed_start source _ _ limit).parse
  obtain ⟨place, hmarks, hexcerpt⟩ := hplaced.places d hd e he
  have hscanned := TokenStream.scanned_rawAll source s.names
  exact {
    toAligned := hmarks.aligned hexcerpt
    offender := by
      obtain ⟨offender, rfl, htokens⟩ :=
        hmarks.exists_token (TokenStream.ofSource source s.names).allNames
      refine ⟨offender, fun k hk => ?_, hexcerpt⟩
      rw [TokenStream.rawAll_ofSource]
      exact htokens k hk
    shows := fun k hk => DiagnosticLog.shows_of_excerpt hscanned hk hexcerpt
    caret := e.exists_padding }

/-- Behind a tab, the caret stands behind a tab too. -/
theorem Session.aligned_read_tab :
    let e : Excerpt := ⟨1, 2, "\tx"⟩
    e.caretLine = "\t^" ∧
      e.LinesUp "\tx" (TokenStream.ofSource "\tx" (Session.start []).names).rawAll :=
  ⟨by decide +kernel, Session.aligned_read (Session.start []) "\tx" none
    ⟨1, Problem.strayToken.message, some ⟨1, 2, "\tx"⟩⟩ (by decide +kernel) _ rfl⟩

end Netlist
