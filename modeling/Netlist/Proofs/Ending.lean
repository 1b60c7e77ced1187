import Netlist.Proofs.Alignment

/-!
# Reports at the end of the input

The scanner counts lines and columns character by character. A message about the end of the input
does not ask it: the lines of the source are cut out, the last one that is not blank is looked for
from behind, and its white space is cut off. Both ways lead to the same place, whatever ends the
lines and whatever white space stands behind the text.

## Results

* `Position.behindText_append_cons`: the place behind the last character that is not white space is
  where the scanner is when it has read that character.
* `DiagnosticLog.ends_report`: **a message about the end of the input points where the scanner is
  behind the last text.**
-/

namespace Netlist

open Text (isBlank IsLine)

/-- A text is blank, or has a last character that is not white space. -/
theorem Text.blank_or_exists_last (cs : List Char) :
    (∀ c ∈ cs, isBlank c = true) ∨ ∃ before c rest, cs = before ++ c :: rest ∧
      isBlank c = false ∧ ∀ b ∈ rest, isBlank b = true := by
  induction cs with
  | nil => exact .inl nofun
  | cons c cs ih =>
    rcases ih with hblank | ⟨before, d, rest, rfl, hd, hrest⟩
    · cases hc : isBlank c with
      | true => exact .inl (List.forall_mem_cons.mpr ⟨hc, hblank⟩)
      | false => exact .inr ⟨[], c, cs, rfl, hc, hblank⟩
    · exact .inr ⟨c :: before, d, rest, rfl, hd, hrest⟩

namespace Position

theorem behindText_of_blank (p : Position) {cs : List Char} (h : ∀ c ∈ cs, isBlank c = true) :
    p.behindText cs = none := by
  induction cs generalizing p with
  | nil => rfl
  | cons c cs ih =>
    obtain ⟨hc, hcs⟩ := List.forall_mem_cons.mp h
    rw [behindText, ih _ hcs, hc]
    rfl

/-- **The place behind the last character that is not white space** is where counting character by
character is behind it. -/
theorem behindText_append_cons (p : Position) {before rest : List Char} {c : Char}
    (hc : isBlank c = false) (hrest : ∀ b ∈ rest, isBlank b = true) :
    p.behindText (before ++ c :: rest) = some (p.after (before ++ [c])) := by
  rw [behindText_append, behindText, behindText_of_blank _ hrest, hc, after_append]
  rfl

end Position

/-- The excerpt of a message about the end of the input: none for a blank source, and else the line
of the last character that is not white space, up to behind it. -/
inductive Excerpt.Ends (source : List Char) : Option Excerpt → Prop
  | blank (blank : ∀ c ∈ source, isBlank c = true) : Ends source none
  | text {before rest : List Char} {c : Char} {e : Excerpt}
      (source_eq : source = before ++ c :: rest) (shows : isBlank c = false)
      (blank : ∀ b ∈ rest, isBlank b = true)
      (position : e.position = Position.start.after (before ++ [c]))
      -- The scanner is there when it has read the text up to that character.
      (scanner : ∀ names : NameTable,
        (TokenStream.ofSource (String.ofList (before ++ [c])) names).rawAll.2.position = e.position)
      (line : ∃ n, e.line = n + 1 ∧ IsLine source n e.text.toList) : Ends source (some e)

namespace DiagnosticLog

variable {log : DiagnosticLog} {source : String}

/-- A message about the end of the input shows a line of the source. -/
theorem isLine_of_endExcerpt (h : log.lines = (ofSource source).lines) {e : Excerpt}
    (he : log.endExcerpt = some e) :
    ∃ n, e.line = n + 1 ∧ IsLine source.toList n e.text.toList := by
  obtain ⟨n, hn, hget, -⟩ := exists_of_endExcerpt he
  rw [h, ofSource, List.getElem?_map] at hget
  obtain ⟨line, hline, htext⟩ := Option.map_eq_some_iff.mp hget
  refine ⟨n, hn, ?_⟩
  rw [← htext, String.toList_ofList]
  exact Text.isLine_of_getElem? hline

theorem ends_excerpt (h : log.lines = (ofSource source).lines) :
    Excerpt.Ends source.toList (log.excerpt .endOfInput) := by
  have hposition : (log.excerpt .endOfInput).map Excerpt.position =
      Position.start.behindText source.toList := position_excerpt h .endOfInput
  rcases Text.blank_or_exists_last source.toList with hblank | ⟨before, c, rest, hsource, hc, hrest⟩
  · rw [Position.behindText_of_blank _ hblank, Option.map_eq_none_iff] at hposition
    rw [hposition]
    exact .blank hblank
  · rw [hsource, Position.behindText_append_cons _ hc hrest] at hposition
    obtain ⟨e, he, hat⟩ := Option.map_eq_some_iff.mp hposition
    rw [he]
    refine .text hsource hc hrest hat (fun names => ?_) (isLine_of_endExcerpt h he)
    rw [TokenStream.position_rawAll, String.toList_ofList, hat]

/-- **A message about the end of the input points where the scanner is behind the last text**, and
shows the line there: in every source, whatever was reported before. For a source without text it
points nowhere. -/
theorem ends_report (source : String) (earlier : List Diagnostic) (message : String) :
    ∃ excerpt, (report { ofSource source with diagnostics := earlier } message
        .endOfInput).diagnostics = earlier ++ [⟨earlier.length + 1, message, excerpt⟩] ∧
      (excerpt = none ↔ ∀ c ∈ source.toList, isBlank c = true) ∧
      Excerpt.Ends source.toList excerpt := by
  let log : DiagnosticLog := { ofSource source with diagnostics := earlier }
  have hends : Excerpt.Ends source.toList (log.excerpt .endOfInput) := ends_excerpt rfl
  refine ⟨log.excerpt .endOfInput, rfl, ?_, hends⟩
  generalize log.excerpt .endOfInput = excerpt at hends
  cases hends with
  | blank blank => exact iff_of_true rfl blank
  | @text before rest c e source_eq shows =>
    refine iff_of_false nofun fun hblank => ?_
    have hc : isBlank c = true := hblank c (by simp [source_eq])
    rw [shows] at hc
    cases hc

/-- A comment is text, a blank line behind it is not, and `'\r'` takes a column where it ends no
line. -/
example : (ofSource "DEVICE:\r\n# a\r \r\n \n").endExcerpt = some ⟨2, 4, "# a\r "⟩ := by
  decide +kernel

end DiagnosticLog

end Netlist
