import Mathlib.Data.List.TakeWhile
import Netlist.Diagnostic.Log
import Netlist.Text.Position

/-!
# The end of a text

A message about the end of the input points behind the last character of the source that is not
white space. What stands before does not matter for its place, but for how many lines and columns
it takes.

## Results

* `DiagnosticLog.point_endOfInput`: where a message about the end of the input points.
* `Position.behindText_append`: that place in a text put together from two.
-/

namespace Netlist

open Text (isBlank trimEnd lines consLine)

/-- The position behind the last character that is not white space, in a text from a position on. -/
def Position.behindText (p : Position) : List Char → Option Position
  | [] => none
  | c :: cs =>
    ((p.next c).behindText cs).or (if isBlank c then none else some (p.next c))

namespace Position

theorem behindText_append (p : Position) (as bs : List Char) :
    p.behindText (as ++ bs) = ((p.after as).behindText bs).or (p.behindText as) := by
  induction as generalizing p with
  | nil => rw [behindText, List.nil_append, after_nil, Option.or_none]
  | cons c as ih => rw [List.cons_append, behindText, ih, Option.or_assoc, after_cons, behindText]

theorem isSome_behindText (p : Position) {cs : List Char} (h : ∃ c ∈ cs, isBlank c = false) :
    (p.behindText cs).isSome = true := by
  obtain ⟨c, hc, hb⟩ := h
  obtain ⟨as, bs, rfl⟩ := List.append_of_mem hc
  rw [behindText_append, Option.isSome_or, behindText, Option.isSome_or, hb]
  simp

end Position

/-! ## The last line with text -/

/-- The end of the last line that is not blank; the first line is `n`, of which `m` characters
stand before. -/
def endOfLines (n m : Nat) : List (List Char) → Option Position
  | [] => none
  | l :: ls =>
    (endOfLines (n + 1) 0 ls).or
      (if l.all isBlank then none else some ⟨n, m + (trimEnd l).length + 1⟩)

theorem length_trimEnd_cons (c : Char) (cs : List Char) : (trimEnd (c :: cs)).length =
    if cs.all isBlank then (if isBlank c then 0 else 1) else (trimEnd cs).length + 1 := by
  unfold trimEnd
  rw [List.length_reverse, List.length_reverse, List.reverse_cons, List.dropWhile_append]
  have hempty : (cs.reverse.dropWhile isBlank).isEmpty = cs.all isBlank := by
    rw [Bool.eq_iff_iff, List.isEmpty_iff, List.dropWhile_eq_nil_iff, List.all_eq_true]
    simp
  rw [hempty]
  split
  · cases hc : isBlank c <;> simp [hc]
  · simp

theorem endOfLines_consLine (n m : Nat) (c : Char) (ls : List (List Char)) :
    endOfLines n m (consLine c ls) =
      (endOfLines n (m + 1) ls).or (if isBlank c then none else some ⟨n, m + 2⟩) := by
  cases ls with
  | nil =>
    show (none : Option Position).or (if [c].all isBlank then none else _) = _
    rw [length_trimEnd_cons]
    cases hc : isBlank c <;> simp [hc, endOfLines]
  | cons l ls =>
    show (endOfLines (n + 1) 0 ls).or (if (c :: l).all isBlank then none else _) =
      ((endOfLines (n + 1) 0 ls).or (if l.all isBlank then none else _)).or _
    rw [Option.or_assoc, length_trimEnd_cons]
    congr 1
    cases hl : l.all isBlank with
    | true => cases hc : isBlank c <;> simp [hl, hc]
    | false =>
      simp [hl]
      omega

theorem behindText_eq_endOfLines (cs : List Char) (n m : Nat) :
    (⟨n, m + 1⟩ : Position).behindText cs = endOfLines n m (lines cs) := by
  fun_induction lines cs generalizing n m with
  | case1 => rfl
  | case2 cs ih =>
    have hnext : (⟨n, m + 1⟩ : Position).next '\n' = ⟨n + 1, 0 + 1⟩ := rfl
    rw [Position.behindText, hnext, ih]
    rfl
  | case3 cs ih =>
    have hnext : ((⟨n, m + 1⟩ : Position).next '\r').next '\n' = ⟨n + 1, 0 + 1⟩ := rfl
    rw [Position.behindText, Position.behindText, hnext, ih, Option.or_assoc]
    rfl
  | case4 c cs hn hr ih =>
    have hnext : (⟨n, m + 1⟩ : Position).next c = ⟨n, m + 1 + 1⟩ := if_neg hn
    rw [endOfLines_consLine, ← ih, Position.behindText, hnext]

/-! ## Points of a log -/

/-- A line and a column, as numbers. -/
def Position.pair (p : Position) : Nat × Nat := (p.line, p.column)

namespace DiagnosticLog

/-- The line and the column that a place points at. -/
def point (log : DiagnosticLog) (place : Place) : Option (Nat × Nat) :=
  (log.excerpt place).map fun e => (e.line, e.column)

theorem find?_zipIdx_lines (ls : List (List Char)) (n : Nat) :
    (((ls.map String.ofList).zipIdx n).reverse.find? fun l => !(l.1.toList.all isBlank)).map
        (fun l => (l.2 + 1, (trimEnd l.1.toList).length + 1)) =
      (endOfLines (n + 1) 0 ls).map Position.pair := by
  induction ls generalizing n with
  | nil => rfl
  | cons l ls ih =>
    rw [List.map_cons, List.zipIdx_cons, List.reverse_cons, List.find?_append, Option.map_or, ih,
      endOfLines, Option.map_or]
    congr 1
    rw [List.find?_singleton, String.toList_ofList]
    cases l.all isBlank <;> simp [Position.pair]

/-- **A message about the end of the input points behind the text of the source.** -/
theorem point_endOfInput {log : DiagnosticLog} {source : String}
    (h : log.lines = (ofSource source).lines) :
    log.point .endOfInput = (Position.start.behindText source.toList).map Position.pair := by
  have hend := find?_zipIdx_lines (Text.lines source.toList) 0
  rw [← behindText_eq_endOfLines] at hend
  rw [show Position.start = ⟨1, 0 + 1⟩ from rfl, ← hend]
  unfold point excerpt endExcerpt lastText?
  rw [h, Option.map_map]
  rfl

end DiagnosticLog

end Netlist
