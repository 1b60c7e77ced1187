import Netlist.Proofs.Alignment
import Netlist.Proofs.Resolution

/-!
# Reports on paper and on a terminal

The diagnostics of a report are written in two layouts, as plain text and as pieces with changes of
style. They have the same text, and in the pieces every style is reset within its diagnostic. The
plain text has a fixed number of lines for each diagnostic only because nothing that is put into it
has a line feed: a message is made of fixed texts and of names, which have letters and digits, and
an excerpt shows a line of the source.

## Results

* `plainAll_piecesAll`: the pieces without styles are the plain text.
* `Piece.Closed.shown_append`: behind pieces that are closed, no style is in force.
* `unbroken_rows_check`: no row of a diagnostic of a check has a line feed.
* `Report.rendered_check`: **the two layouts agree, and a check has three lines for a diagnostic
  that points into the source and one for any other.**
-/

namespace Netlist

/-! ## The text of the pieces -/

theorem Piece.plainAll_append (ps qs : List Piece) :
    plainAll (ps ++ qs) = plainAll ps ++ plainAll qs := by
  simp [plainAll, String.join_append]

/-- The pieces of a diagnostic have its plain text, with a line feed at the end. -/
theorem Diagnostic.plainAll_pieces (d : Diagnostic) :
    Piece.plainAll d.pieces = d.display ++ "\n" := by
  unfold pieces headline display
  cases d.excerpt with
  | none => simp [Piece.plainAll, Piece.plain, String.append_assoc]
  | some e => simp [Piece.plainAll, Piece.plain, illustration, String.append_assoc]

/-- **The pieces without styles are the plain text.** -/
theorem plainAll_piecesAll (ds : List Diagnostic) :
    Piece.plainAll (piecesAll ds) = displayAll ds := by
  induction ds with
  | nil => rfl
  | cons d ds ih =>
    unfold piecesAll displayAll at *
    rw [List.flatMap_cons, Piece.plainAll_append, d.plainAll_pieces, ih]
    simp [String.join_cons]

/-! ## Styles -/

namespace Piece

/-- Every style is reset before the next one and before the end: only texts stand in between. -/
def Closed (ps : List Piece) : Prop :=
  ∀ before style after, ps = before ++ .style style :: after →
    ∃ (texts : List String) (rest : List Piece), after = texts.map .text ++ .reset :: rest

/-- The style in force behind a piece. -/
def styleBehind (current : Option Style) : Piece → Option Style
  | .text _ => current
  | .style s => some s
  | .reset => none

/-- The texts of pieces, each with the style in force. -/
def shown (current : Option Style) : List Piece → List (String × Option Style)
  | [] => []
  | .text s :: ps => (s, current) :: shown current ps
  | p :: ps => shown (styleBehind current p) ps

variable {ps qs : List Piece}

theorem Closed.tail {p : Piece} (h : Closed (p :: ps)) : Closed ps := by
  rintro before style after rfl
  exact h (p :: before) style after rfl

theorem closed_nil : Closed [] := by
  intro before style after h
  simp at h

theorem Closed.cons (h : Closed ps) {p : Piece} (hp : ∀ style, p ≠ .style style) :
    Closed (p :: ps) := by
  intro before style after he
  cases before with
  | nil => exact absurd (List.cons.inj he).1 (hp style)
  | cons q before => exact h before style after (List.cons.inj he).2

/-- A style that is reset, and then closed pieces. -/
theorem Closed.styled (h : Closed ps) (s : Style) (texts : List String) :
    Closed (.style s :: (texts.map .text ++ .reset :: ps)) := by
  have hbehind : Closed (texts.map .text ++ .reset :: ps) := by
    induction texts with
    | nil => exact h.cons nofun
    | cons text texts ih => exact ih.cons nofun
  intro before style after he
  cases before with
  | nil => exact ⟨texts, ps, (List.cons.inj he).2.symm⟩
  | cons q before => exact hbehind before style after (List.cons.inj he).2

theorem shown_append (current : Option Style) (ps qs : List Piece) :
    shown current (ps ++ qs) = shown current ps ++ shown (ps.foldl styleBehind current) qs := by
  induction ps generalizing current with
  | nil => rfl
  | cons p ps ih => cases p <;> simp [shown, styleBehind, ih]

/-- A style is not in force behind closed pieces, if they start without one or reset it first. -/
theorem Closed.foldl_styleBehind (h : Closed ps) {current : Option Style}
    (hstart : current = none ∨ ∃ (texts : List String) (rest : List Piece),
      ps = texts.map .text ++ .reset :: rest) : ps.foldl styleBehind current = none := by
  induction ps generalizing current with
  | nil =>
    rcases hstart with rfl | ⟨texts, rest, he⟩
    · rfl
    · simp at he
  | cons p ps ih =>
    refine ih h.tail ?_
    cases p with
    | text s =>
      rcases hstart with rfl | ⟨_ | ⟨_, texts⟩, rest, he⟩
      · exact .inl rfl
      · cases he
      · exact .inr ⟨texts, rest, (List.cons.inj he).2⟩
    | style s => exact .inr (h [] s ps rfl)
    | reset => exact .inl rfl

/-- **Behind closed pieces no style is in force.** -/
theorem Closed.shown_append (h : Closed ps) (qs : List Piece) :
    shown none (ps ++ qs) = shown none ps ++ shown none qs := by
  rw [Piece.shown_append, h.foldl_styleBehind (.inl rfl)]

end Piece

/-- **Every style of a diagnostic is reset within it.** -/
theorem Diagnostic.closed_pieces (d : Diagnostic) : Piece.Closed d.pieces := by
  have htail : ∀ ps, Piece.Closed ps → Piece.Closed (d.headline ++ ps) := by
    intro ps hps
    have hmessage := hps.styled ⟨none⟩ [d.message ++ "\n"]
    unfold headline
    cases d.excerpt with
    | none => exact hmessage.styled ⟨some .red⟩ ["Error " ++ toString d.number, ": "]
    | some e =>
      exact hmessage.styled ⟨some .red⟩
        ["Error " ++ toString d.number, " on line " ++ toString e.line, ": "]
  unfold pieces
  cases d.excerpt with
  | none => exact htail _ Piece.closed_nil
  | some e =>
    have hcaret := Piece.closed_nil.styled ⟨some .blue⟩ [e.caretLine ++ "\n"]
    exact htail _ (hcaret.cons nofun)

/-- No style of a diagnostic is in force in the next one. -/
theorem shown_piecesAll (ds : List Diagnostic) :
    Piece.shown none (piecesAll ds) = ds.flatMap fun d => Piece.shown none d.pieces := by
  unfold piecesAll
  induction ds with
  | nil => rfl
  | cons d ds ih => rw [List.flatMap_cons, d.closed_pieces.shown_append, ih, List.flatMap_cons]

/-! ## Rows -/

/-- What stands in the lines of a diagnostic. -/
def Diagnostic.rows (d : Diagnostic) : List String :=
  match d.excerpt with
  | some e =>
    ["Error " ++ toString d.number ++ " on line " ++ toString e.line ++ ": " ++ d.message, e.text,
      e.caretLine]
  | none => ["Error " ++ toString d.number ++ ": " ++ d.message]

theorem Diagnostic.display_eq_rows (d : Diagnostic) :
    d.display ++ "\n" = String.join (d.rows.map (· ++ "\n")) := by
  unfold rows display
  cases d.excerpt with
  | none => simp
  | some e => simp [String.append_assoc]

/-- The plain text is the rows, with a line feed behind each. -/
theorem displayAll_eq_rows (ds : List Diagnostic) :
    displayAll ds = String.join ((ds.flatMap Diagnostic.rows).map (· ++ "\n")) := by
  induction ds with
  | nil => rfl
  | cons d ds ih =>
    unfold displayAll at *
    rw [List.map_cons, String.join_cons, ih, d.display_eq_rows, List.flatMap_cons, List.map_append,
      String.join_append]

/-- A diagnostic that points into the source has three rows, any other has one. -/
theorem length_flatMap_rows (ds : List Diagnostic) : (ds.flatMap Diagnostic.rows).length =
    3 * ds.countP (fun d => !d.isGlobal) + ds.countP Diagnostic.isGlobal := by
  induction ds with
  | nil => rfl
  | cons d ds ih =>
    rw [List.flatMap_cons, List.length_append, ih, List.countP_cons, List.countP_cons]
    unfold Diagnostic.rows Diagnostic.isGlobal
    cases d.excerpt with
    | none => simp; omega
    | some e => simp; omega

/-- A row without a line feed is one line more. -/
theorem Text.length_lines_append {row : List Char} (h : '\n' ∉ row) (cs : List Char) :
    (lines (row ++ '\n' :: cs)).length = (lines cs).length + 1 := by
  induction row with
  | nil => rfl
  | cons c row ih =>
    obtain ⟨hc, hrow⟩ := not_or.mp (mt List.mem_cons.mpr h)
    by_cases hreturn : c = '\r' ∧ row = []
    · obtain ⟨rfl, rfl⟩ := hreturn
      rfl
    · have hhead : c = '\r' → (row ++ '\n' :: cs).head? ≠ some '\n' := by
        intro hr
        cases row with
        | nil => exact absurd ⟨hr, rfl⟩ hreturn
        | cons d row => exact fun he => hrow (by simp [Option.some.inj he])
      have ih := ih hrow
      rw [List.cons_append, lines_cons_of_ne (Ne.symm hc) hhead]
      cases hls : lines (row ++ '\n' :: cs) with
      | nil => simp [hls] at ih
      | cons line others =>
        rw [hls] at ih
        simpa [consLine] using ih

theorem Text.length_lines_join {rows : List String} (h : ∀ row ∈ rows, '\n' ∉ row.toList) :
    (lines (String.join (rows.map (· ++ "\n"))).toList).length = rows.length := by
  induction rows with
  | nil => rfl
  | cons row rows ih =>
    obtain ⟨hrow, hrows⟩ := List.forall_mem_cons.mp h
    have htext : (String.join ((row :: rows).map (· ++ "\n"))).toList =
        row.toList ++ '\n' :: (String.join (rows.map (· ++ "\n"))).toList := by
      simp [String.join_cons]
    rw [htext, length_lines_append hrow, ih hrows, List.length_cons]

/-! ## Rows of a check -/

open Problem (MadeOf madeOf_message)

/-- A text without a line feed. -/
abbrev Unbroken (a : String) : Prop := MadeOf (· ≠ '\n') a

theorem ne_newline_of_isFixed (c : Char) (h : Problem.isFixed c = true) : c ≠ '\n' := by
  rintro rfl
  cases h

/-- A text that stands between names in a message. -/
theorem unbroken_ofList {as : List Char} (h : as.all Problem.isFixed = true) :
    Unbroken (.ofList as) :=
  Problem.madeOf_ofList ne_newline_of_isFixed h

theorem ne_newline_of_isAlphanum {c : Char} (h : c.isAlphanum = true) : c ≠ '\n' := by
  rintro rfl
  cases h

theorem unbroken_toString (n : Nat) : Unbroken (toString n) := by
  intro c hc
  rw [Nat.toString_eq_repr, Nat.repr, String.toList_ofList] at hc
  have hdigit : c.isDigit = true := Nat.isDigit_of_mem_toDigits (by decide) (by decide) hc
  exact ne_newline_of_isAlphanum (by rw [Char.isAlphanum, hdigit, Bool.or_true])

/-- A caret line is blanks, tabs and the caret. -/
theorem Excerpt.unbroken_caretLine (e : Excerpt) : Unbroken e.caretLine := by
  obtain ⟨padding, htext, hlength, hpadding⟩ := e.exists_padding
  intro c hc
  rw [htext] at hc
  rcases List.mem_append.mp hc with hc | hc
  · obtain ⟨i, hi, hget⟩ := List.mem_iff_getElem.mp hc
    have hi' := hpadding i (hlength ▸ hi)
    rw [List.getElem?_eq_getElem hi, hget, Option.some.injEq] at hi'
    rw [hi']
    split <;> decide
  · rw [List.mem_singleton.mp hc]
    decide

/-- The message of a diagnostic of a check has no line feed. -/
theorem unbroken_message {source : String} {limit : Option Nat} {d : Diagnostic}
    (hd : d ∈ (check source limit).diagnostics) : Unbroken d.message := by
  rw [check_eq] at hd
  rcases Reading.reports_readOn _ hd with hd | hreports
  · cases hd
  · obtain ⟨problem, hmessage, htold⟩ :=
      (Reading.registered_ofCheck source limit).told_of_reports hreports
    rw [hmessage]
    refine madeOf_message ne_newline_of_isFixed fun name hname c hc => ?_
    exact ne_newline_of_isAlphanum
      (Reading.isAlphanum_ofCheck source limit name (htold name hname) c hc)

/-- The excerpt of a diagnostic of a check shows a line of the source. -/
theorem aligned_of_mem_check {source : String} {limit : Option Nat} {d : Diagnostic}
    (hd : d ∈ (check source limit).diagnostics) {e : Excerpt} (he : e ∈ d.excerpt) :
    e.Aligned source.toList := by
  rw [check_eq] at hd
  -- A reading that has not finished is read on.
  have hplaced : (Reading.ofCheck source limit).readOn.2.Placed source :=
    (Reading.placed_start source _ _ limit).parse
  obtain ⟨place, hmarks, hexcerpt⟩ := hplaced.places d hd e he
  exact hmarks.aligned hexcerpt

/-- **No row of a diagnostic of a check has a line feed.** -/
theorem unbroken_rows_check {source : String} {limit : Option Nat} {d : Diagnostic}
    (hd : d ∈ (check source limit).diagnostics) : ∀ row ∈ d.rows, Unbroken row := by
  have herror : Unbroken "Error " := unbroken_ofList (by decide)
  have hline : Unbroken " on line " := unbroken_ofList (by decide)
  have hcolon : Unbroken ": " := unbroken_ofList (by decide)
  have hnumber := unbroken_toString d.number
  have hmessage := unbroken_message hd
  have haligned {e : Excerpt} (he : e ∈ d.excerpt) := aligned_of_mem_check hd he
  unfold Diagnostic.rows
  cases he : d.excerpt with
  | none =>
    intro row hrow
    rw [List.mem_singleton.mp hrow]
    exact ((herror.append hnumber).append hcolon).append hmessage
  | some e =>
    have hhead := ((herror.append hnumber).append hline).append (unbroken_toString e.line)
    have htext : Unbroken e.text := by
      rintro c hc rfl
      exact (haligned he).text.unbroken hc
    simp only [List.forall_mem_cons]
    exact ⟨(hhead.append hcolon).append hmessage, htext, e.unbroken_caretLine, nofun⟩

/-! ## Reports -/

namespace Report

/-- What is printed for a report is its plain text but for the styles, and no style is in force
behind the diagnostic that it belongs to. -/
structure Agrees (r : Report) : Prop where
  plain : Piece.plainAll r.pieces = r.render
  /-- In a diagnostic, every style is reset before the next one and before the end. -/
  closed : ∀ d ∈ r.diagnostics, Piece.Closed d.pieces
  /-- The texts of a diagnostic have the styles that they have on their own. -/
  apart : Piece.shown none r.pieces = r.diagnostics.flatMap fun d => Piece.shown none d.pieces

theorem agrees (r : Report) : r.Agrees where
  plain := plainAll_piecesAll r.diagnostics
  closed d _ := d.closed_pieces
  apart := shown_piecesAll r.diagnostics

/-- The plain text of a report, line by line. -/
structure LineByLine (r : Report) : Prop where
  rows : r.render = String.join ((r.diagnostics.flatMap Diagnostic.rows).map (· ++ "\n"))
  unbroken : ∀ d ∈ r.diagnostics, ∀ row ∈ d.rows, '\n' ∉ row.toList
  diagnostic : ∀ d ∈ r.diagnostics,
    (Text.lines (d.display ++ "\n").toList).length = if d.isGlobal then 1 else 3
  /-- Three lines for each diagnostic that points into the source, one for any other. -/
  lines : (Text.lines r.render.toList).length =
    3 * r.diagnostics.countP (fun d => !d.isGlobal) + r.diagnostics.countP Diagnostic.isGlobal

/-- **The two layouts of a report agree**, whatever its diagnostics are; **and the plain text of a
check has three lines for a diagnostic that points into the source, and one for any other.** -/
theorem rendered_check (source : String) (limit : Option Nat) :
    (∀ r : Report, r.Agrees) ∧ (check source limit).LineByLine := by
  have hunbroken {d : Diagnostic} (hd : d ∈ (check source limit).diagnostics) :
      ∀ row ∈ d.rows, '\n' ∉ row.toList := by
    intro row hrow hmem
    exact unbroken_rows_check hd row hrow '\n' hmem rfl
  have hall : ∀ row ∈ (check source limit).diagnostics.flatMap Diagnostic.rows,
      '\n' ∉ row.toList := by
    intro row hrow
    obtain ⟨d, hd, hrow⟩ := List.mem_flatMap.mp hrow
    exact hunbroken hd row hrow
  refine ⟨agrees, displayAll_eq_rows _, fun d => hunbroken, fun d hd => ?_, ?_⟩
  · rw [d.display_eq_rows, Text.length_lines_join (hunbroken hd)]
    unfold Diagnostic.rows Diagnostic.isGlobal
    cases d.excerpt <;> rfl
  · rw [render, displayAll_eq_rows, Text.length_lines_join hall, length_flatMap_rows]

end Report

end Netlist
