import Mathlib.Data.List.TakeWhile
import Netlist.Proofs.Excerpts
import Netlist.Proofs.Scanning
import Netlist.Text.Line

/-!
# Lines and columns

The scanner counts line feeds and characters; the lines of a text are cut out apart from that. The
two agree wherever a message can point: on a character that ends no line, and right behind one.

## Results

* `Text.isLine_of_getElem?`: what a line of a text is, told by the text around it.
* `Text.getElem?_lines_append`: the line and the column of a character.
-/

namespace Netlist.Text

/-! ## What a line is -/

/-- `line` is a line of `source` with `n` lines in front of it: it goes up to a line end, which is
`'\n'`, or `'\r'` and `'\n'`, or up to the end of the source if it is not empty. -/
structure IsLine (source : List Char) (n : Nat) (line : List Char) : Prop where
  cut : ∃ before ending rest, source = before ++ (line ++ (ending ++ rest)) ∧
    before.count '\n' = n ∧ (before = [] ∨ before.getLast? = some '\n') ∧
    (ending = ['\n'] ∧ line.getLast? ≠ some '\r' ∨ ending = ['\r', '\n'] ∨
      ending = [] ∧ rest = [] ∧ line ≠ [])
  unbroken : '\n' ∉ line

variable {cs line : List Char} {c : Char} {n : Nat}

theorem isLine_nil_cons (cs : List Char) : IsLine ('\n' :: cs) 0 [] :=
  ⟨⟨[], ['\n'], cs, rfl, rfl, .inl rfl, .inl ⟨rfl, nofun⟩⟩, List.not_mem_nil⟩

theorem isLine_nil_cons_cons (cs : List Char) : IsLine ('\r' :: '\n' :: cs) 0 [] :=
  ⟨⟨[], ['\r', '\n'], cs, rfl, rfl, .inl rfl, .inr (.inl rfl)⟩, List.not_mem_nil⟩

theorem isLine_singleton (hc : c ≠ '\n') : IsLine [c] 0 [c] :=
  ⟨⟨[], [], [], rfl, rfl, .inl rfl, .inr (.inr ⟨rfl, rfl, List.cons_ne_nil _ _⟩)⟩, by
    simpa using hc.symm⟩

/-- A line behind the end of another. -/
theorem IsLine.behind (h : IsLine cs n line) (front : List Char) (hcount : front.count '\n' = 1)
    (hlast : front.getLast? = some '\n') : IsLine (front ++ cs) (n + 1) line := by
  obtain ⟨⟨before, ending, rest, rfl, hn, hbefore, hending⟩, hunbroken⟩ := h
  refine ⟨⟨front ++ before, ending, rest, (List.append_assoc _ _ _).symm, ?_, .inr ?_, hending⟩,
    hunbroken⟩
  · rw [List.count_append, hcount, hn, Nat.add_comm]
  · rw [List.getLast?_append]
    rcases hbefore with rfl | hbefore
    · exact hlast
    · rw [hbefore]
      rfl

/-- A line that is not the first one, with more text in front. -/
theorem IsLine.cons_succ (h : IsLine cs (n + 1) line) (hc : c ≠ '\n') :
    IsLine (c :: cs) (n + 1) line := by
  obtain ⟨⟨before, ending, rest, rfl, hn, hbefore, hending⟩, hunbroken⟩ := h
  refine ⟨⟨c :: before, ending, rest, rfl, ?_, .inr ?_, hending⟩, hunbroken⟩
  · rw [List.count_cons_of_ne hc, hn]
  · rcases hbefore with rfl | hbefore
    · cases hn
    · rw [List.getLast?_cons, hbefore]
      rfl

/-- The first line, with a character in front of it. -/
theorem IsLine.cons_zero (h : IsLine cs 0 line) (hc : c ≠ '\n')
    (hr : ∀ ds, c = '\r' → cs = '\n' :: ds → False) : IsLine (c :: cs) 0 (c :: line) := by
  obtain ⟨⟨before, ending, rest, rfl, hn, hbefore, hending⟩, hunbroken⟩ := h
  have hnil : before = [] := by
    rcases hbefore with hbefore | hbefore
    · exact hbefore
    · exact absurd (List.mem_of_getLast? hbefore) (List.count_eq_zero.mp hn)
  subst hnil
  refine ⟨⟨[], ending, rest, rfl, rfl, .inl rfl, ?_⟩, ?_⟩
  · rcases hending with ⟨rfl, hline⟩ | hending | ⟨rfl, rfl, -⟩
    · refine .inl ⟨rfl, ?_⟩
      cases line with
      | nil => exact fun he => hr rest (Option.some.inj he) rfl
      | cons d line => rwa [List.getLast?_cons_cons]
    · exact .inr (.inl hending)
    · exact .inr (.inr ⟨rfl, rfl, List.cons_ne_nil _ _⟩)
  · exact fun hm => (List.mem_cons.mp hm).elim (fun he => hc he.symm) hunbroken

theorem lines_eq_nil_iff : lines cs = [] ↔ cs = [] := by
  fun_cases lines cs with
  | case4 c cs => cases lines cs <;> simp [consLine]
  | _ => simp

/-- A character that ends no line is in front of the first one. -/
theorem lines_cons_of_ne (hn : c ≠ '\n') (hr : c = '\r' → cs.head? ≠ some '\n') :
    lines (c :: cs) = consLine c (lines cs) := by
  rw [lines]
  · exact hn
  · rintro ds hc rfl
    exact hr hc rfl

/-- **What the lines of a text are.** -/
theorem isLine_of_getElem? (h : (lines cs)[n]? = some line) : IsLine cs n line := by
  fun_induction lines cs generalizing n line with
  | case1 => cases h
  | case2 cs ih =>
    cases n with
    | zero =>
      obtain rfl := Option.some.inj h
      exact isLine_nil_cons cs
    | succ n => exact (ih h).behind ['\n'] rfl rfl
  | case3 cs ih =>
    cases n with
    | zero =>
      obtain rfl := Option.some.inj h
      exact isLine_nil_cons_cons cs
    | succ n => exact (ih h).behind ['\r', '\n'] rfl rfl
  | case4 c cs hn hr ih =>
    cases hlines : lines cs with
    | nil =>
      obtain rfl := lines_eq_nil_iff.mp hlines
      cases n with
      | zero =>
        obtain rfl := Option.some.inj h
        exact isLine_singleton hn
      | succ n => cases h
    | cons first others =>
      rw [hlines] at h ih
      cases n with
      | zero =>
        obtain rfl := Option.some.inj h
        exact (ih rfl).cons_zero hn hr
      | succ n => exact (ih h).cons_succ hn

/-! ## The line of a character -/

/-- What stands behind the last line feed of a text. -/
def lastLine : List Char → List Char
  | [] => []
  | c :: cs => if '\n' ∈ c :: cs then lastLine cs else c :: cs

theorem lastLine_of_not_mem (h : '\n' ∉ cs) : lastLine cs = cs := by
  cases cs with
  | nil => rfl
  | cons c cs => exact if_neg h

theorem lastLine_cons_of_mem (h : '\n' ∈ cs) : lastLine (c :: cs) = lastLine cs :=
  if_pos (List.mem_cons_of_mem c h)

theorem lastLine_cons_newline (cs : List Char) : lastLine ('\n' :: cs) = lastLine cs :=
  if_pos List.mem_cons_self

theorem column_after (p : Position) (cs : List Char) : (p.after cs).column =
    if '\n' ∈ cs then 1 + (lastLine cs).length else p.column + cs.length := by
  induction cs generalizing p with
  | nil => rfl
  | cons c cs ih =>
    rw [Position.after_cons, ih]
    by_cases hc : c = '\n'
    · subst hc
      rw [if_pos List.mem_cons_self, lastLine_cons_newline]
      split
      · rfl
      · rename_i hcs
        rw [lastLine_of_not_mem hcs]
        rfl
    · have hnext : (p.next c).column = p.column + 1 := by rw [Position.next, if_neg hc]
      have hmem : '\n' ∈ c :: cs ↔ '\n' ∈ cs := by
        rw [List.mem_cons, or_iff_right (Ne.symm hc)]
      simp only [hmem, lastLine, hnext, List.length_cons]
      split
      · rfl
      · omega

/-- A column is counted behind the last line feed in front. -/
theorem column_ofPrefix (before : List Char) :
    (Position.ofPrefix before).column = 1 + (lastLine before).length := by
  rw [← Position.after_start, column_after]
  split
  · rfl
  · rename_i h
    rw [lastLine_of_not_mem h]
    rfl

/-- **The line and the column of a character** that ends no line. -/
theorem getElem?_lines_append (before : List Char) (hn : c ≠ '\n') (hr : c ≠ '\r')
    (rest : List Char) : ∃ tail,
      (lines (before ++ c :: rest))[before.count '\n']? = some (lastLine before ++ c :: tail) := by
  fun_induction lines before with
  | case1 =>
    rw [List.nil_append, lines_cons_of_ne hn fun he => absurd he hr]
    cases lines rest with
    | nil => exact ⟨[], rfl⟩
    | cons first others => exact ⟨first, rfl⟩
  | case2 cs ih =>
    obtain ⟨tail, ih⟩ := ih
    refine ⟨tail, ?_⟩
    rw [lastLine_cons_newline, ← ih, List.count_cons_self]
    rfl
  | case3 cs ih =>
    obtain ⟨tail, ih⟩ := ih
    refine ⟨tail, ?_⟩
    rw [lastLine_cons_of_mem List.mem_cons_self, lastLine_cons_newline, ← ih,
      List.count_cons_of_ne (by decide), List.count_cons_self]
    rfl
  | case4 d cs hd hdr ih =>
    obtain ⟨tail, ih⟩ := ih
    have hhead : d = '\r' → (cs ++ c :: rest).head? ≠ some '\n' := by
      rintro rfl
      cases cs with
      | nil => simpa using hn
      | cons e cs => exact fun he => hdr cs rfl (by rw [Option.some.inj he])
    refine ⟨tail, ?_⟩
    rw [List.cons_append, lines_cons_of_ne hd hhead, List.count_cons_of_ne hd]
    cases hls : lines (cs ++ c :: rest) with
    | nil =>
      rw [hls] at ih
      cases ih
    | cons first others =>
      rw [hls] at ih
      by_cases hcs : '\n' ∈ cs
      · -- The character stands in a later line, which is the same with and without `d` in front.
        obtain ⟨n, hcount⟩ := Nat.exists_eq_succ_of_ne_zero (List.count_pos_iff.mpr hcs).ne'
        rw [lastLine_cons_of_mem hcs, ← ih, hcount]
        rfl
      · have hnone : '\n' ∉ d :: cs := List.not_mem_cons_of_ne_of_not_mem (Ne.symm hd) hcs
        rw [List.count_eq_zero.mpr hcs, lastLine_of_not_mem hcs] at ih
        rw [List.count_eq_zero.mpr hcs, lastLine_of_not_mem hnone, List.cons_append,
          ← Option.some.inj ih]
        rfl

end Netlist.Text
