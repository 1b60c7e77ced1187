import Mathlib.Data.List.TakeWhile
import Netlist.Lexeme

/-!
# Lexing around an edit

How a text is cut into lexemes depends on what stands around only a little: a lexeme depends on the
character behind it, white space runs together, and a `;` or `:` is a lexeme wherever it stands
outside of a comment. So a text that ends in a `;` or `:` keeps its lexemes whatever follows, and
white space in front of a text does not change the lexemes behind it.

## Results

* `Lexeme.lexes_of_sealed`: lexemes up to a `;` or `:` are cut alike in front of any text.
* `Lexeme.dropWhile_ofText_append`: **closed white space in front of a text is passed over.**
-/

namespace Netlist

namespace Lexeme

/-! ## The first lexeme -/

theorem takeWhile_append_cons {α : Type} {p : α → Bool} {w as bs : List α} {a : α}
    (h : (w ++ a :: as).takeWhile p = w) : (w ++ a :: bs).takeWhile p = w := by
  induction w with
  | nil =>
    by_cases ha : p a = true
    · rw [List.nil_append, List.takeWhile_cons_of_pos ha] at h
      cases h
    · exact List.takeWhile_cons_of_neg ha
  | cons x w ih =>
    rw [List.cons_append] at h ⊢
    by_cases hx : p x = true
    · rw [List.takeWhile_cons_of_pos hx] at h ⊢
      rw [ih (List.cons.inj h).2]
    · rw [List.takeWhile_cons_of_neg hx] at h
      cases h

theorem blankRun_hash (cs : List Char) : blankRun false ('#' :: cs) = '#' :: blankRun true cs := rfl

theorem blankRun_blank {c : Char} (h : Text.isBlank c = true) (cs : List Char) :
    blankRun false (c :: cs) = c :: blankRun false cs := by
  have hne : c ≠ '#' := by
    rintro rfl
    exact absurd h (by decide)
  rw [blankRun, if_neg Bool.false_ne_true, if_neg hne, if_pos h]

theorem blankRun_other {c : Char} (h : Text.isBlank c = false) (hc : c ≠ '#') (cs : List Char) :
    blankRun false (c :: cs) = [] := by
  rw [blankRun, if_neg Bool.false_ne_true, if_neg hc, h, if_neg Bool.false_ne_true]

/-- Inside of a comment, white space goes up to the line feed, and on behind it. -/
theorem blankRun_comment {body : List Char} (h : '\n' ∉ body) (cs : List Char) :
    blankRun true (body ++ cs) = body ++ blankRun true cs := by
  induction body with
  | nil => rfl
  | cons c body ih =>
    rw [List.mem_cons, not_or] at h
    rw [List.cons_append, blankRun, if_pos rfl, decide_eq_true (Ne.symm h.1), ih h.2]
    rfl

/-- White space that ends in front of a character is not inside of a comment there. -/
theorem blankRun_append {w cs : List Char} {c : Char} {inComment : Bool}
    (h : blankRun inComment (w ++ c :: cs) = w) (ds : List Char) :
    blankRun inComment (w ++ ds) = w ++ blankRun false ds := by
  induction w generalizing inComment with
  | nil =>
    cases inComment with
    | false => rfl
    | true => cases h
  | cons x w ih =>
    rw [List.cons_append, blankRun] at h ⊢
    split at h
    · rename_i hin
      rw [if_pos hin, ih (List.cons.inj h).2, List.cons_append]
    · rename_i hin
      rw [if_neg hin]
      split at h
      · rename_i hx
        rw [if_pos hx, ih (List.cons.inj h).2, List.cons_append]
      · rename_i hx
        rw [if_neg hx]
        split at h
        · rename_i hb
          rw [if_pos hb, ih (List.cons.inj h).2, List.cons_append]
        · cases h

/-- White space ends where the text does, or in front of a character that starts no white space. -/
theorem drop_blankRun (cs : List Char) : ∀ inComment,
    cs.drop (blankRun inComment cs).length = [] ∨
      ∃ d ds, cs.drop (blankRun inComment cs).length = d :: ds ∧ Text.isBlank d = false ∧
        d ≠ '#' := by
  induction cs with
  | nil => exact fun _ => .inl rfl
  | cons c cs ih =>
    intro inComment
    unfold blankRun
    split
    · exact ih _
    · split
      · exact ih _
      · rename_i hc
        split
        · exact ih _
        · rename_i hb
          exact .inr ⟨c, cs, rfl, by simpa using hb, hc⟩

theorem blankRun_cons_eq_nil {d : Char} {cs : List Char} (h : blankRun false (d :: cs) = [])
    (ds : List Char) : blankRun false (d :: ds) = [] := by
  unfold blankRun at h ⊢
  rw [if_neg Bool.false_ne_true] at h ⊢
  split at h
  · cases h
  · rename_i hd
    rw [if_neg hd]
    split at h
    · cases h
    · rename_i hb
      rw [if_neg hb]

/-- The first lexeme depends on its own text and the character behind it. -/
theorem first_append {c d : Char} {w cs : List Char}
    (h : (first c (w ++ d :: cs)).text = c :: w) (ds : List Char) :
    first c (w ++ d :: ds) = first c (w ++ d :: cs) := by
  unfold first at h ⊢
  split at h
  · rename_i hblank
    have hrun : blankRun false ((c :: w) ++ d :: cs) = c :: w := h
    have hnil : blankRun false (d :: cs) = [] := by
      have happend := blankRun_append hrun (d :: cs)
      rw [hrun] at happend
      exact List.self_eq_append_right.mp happend
    have hrun' : blankRun false ((c :: w) ++ d :: ds) = c :: w := by
      rw [blankRun_append hrun, blankRun_cons_eq_nil hnil, List.append_nil]
    rw [if_pos hblank, if_pos hblank]
    exact congrArg Lexeme.blank (hrun'.trans hrun.symm)
  · rename_i hblank
    rw [if_neg hblank, if_neg hblank]
    split at h
    · rename_i halpha
      have hword : (w ++ d :: cs).takeWhile Char.isAlphanum = w := (List.cons.inj h).2
      rw [if_pos halpha, if_pos halpha, takeWhile_append_cons hword, hword]
    · rename_i halpha
      rw [if_neg halpha, if_neg halpha]
      split at h
      · rename_i hdigit
        have hnumeral : (w ++ d :: cs).takeWhile Char.isDigit = w := (List.cons.inj h).2
        rw [if_pos hdigit, if_pos hdigit, takeWhile_append_cons hnumeral, hnumeral]
      · rename_i hdigit
        rw [if_neg hdigit, if_neg hdigit]
        have hnext : (w ++ d :: ds).head? = (w ++ d :: cs).head? := by cases w <;> rfl
        rw [hnext]

/-! ## Lexemes in front of any text -/

/-- Whether lexemes are cut alike in front of any text. -/
def Lexes (ls : List Lexeme) : Prop :=
  ∀ cs, ofText (ls.flatMap text ++ cs) = ls ++ ofText cs

theorem ofText_append {c : Char} {w cs : List Char} {l : Lexeme} (hl : first c (w ++ cs) = l)
    (htext : l.text = c :: w) : ofText (l.text ++ cs) = l :: ofText cs := by
  rw [htext, List.cons_append, ofText, hl, htext]
  simp

/-- Whether a lexeme ends a segment. -/
def IsSeal (l : Lexeme) : Prop := l = .mark ';' ∨ l = .mark ':'

theorem lexes_seal {l : Lexeme} (h : l.IsSeal) : Lexes [l] := by
  intro cs
  rw [List.flatMap_singleton]
  rcases h with rfl | rfl
  · exact ofText_append (c := ';') (w := []) (by simp [first]; decide) rfl
  · exact ofText_append (c := ':') (w := []) (by simp [first]; decide) rfl

/-- **Lexemes up to a `;` or `:` are cut alike in front of any text.** -/
theorem lexes_of_sealed {ls ms : List Lexeme} {l : Lexeme} (hl : l.IsSeal) {cs : List Char}
    (h : ofText cs = (ls ++ [l]) ++ ms) : Lexes (ls ++ [l]) := by
  induction ls generalizing cs with
  | nil => exact lexes_seal hl
  | cons k ls ih =>
    cases cs with
    | nil =>
      rw [ofText] at h
      cases h
    | cons c rest =>
      rw [ofText] at h
      obtain ⟨hk, hrest⟩ := List.cons.inj h
      have hlexes := ih hrest
      -- The text behind the first lexeme starts with the same character, whatever follows.
      obtain ⟨d, u, hdu⟩ : ∃ d u, (ls ++ [l]).flatMap text = d :: u := by
        refine List.exists_cons_of_ne_nil ?_
        rw [List.flatMap_append, List.flatMap_singleton]
        rcases hl with rfl | rfl <;>
          exact List.append_ne_nil_of_right_ne_nil _ (List.cons_ne_nil _ _)
      have hbehind : rest.drop ((first c rest).text.length - 1) = d :: (u ++ ms.flatMap text) := by
        rw [← flatMap_text_ofText (rest.drop _), hrest]
        show ((ls ++ [l]) ++ ms).flatMap text = _
        rw [List.flatMap_append, hdu, List.cons_append]
      have happend := text_first_append c rest
      obtain ⟨w, hw⟩ : ∃ w, (first c rest).text = c :: w := by
        obtain ⟨d', w, hw⟩ := List.exists_cons_of_ne_nil (text_first_ne_nil c rest)
        rw [hw] at happend
        rw [hw, (List.cons.inj happend).1]
        exact ⟨w, rfl⟩
      rw [hbehind, hw] at happend
      have hrest' : rest = w ++ d :: (u ++ ms.flatMap text) := (List.cons.inj happend).2.symm
      intro cs
      have hfirst : first c (w ++ d :: (u ++ cs)) = k := by
        rw [← hk]
        rw [hrest'] at hw ⊢
        exact first_append hw _
      have htext : k.text = c :: w := by rw [← hk, hw]
      rw [List.cons_append, List.flatMap_cons, List.append_assoc, hdu, List.cons_append,
        ofText_append hfirst htext, ← List.cons_append, ← hdu, hlexes]
      rfl

/-! ## White space -/

theorem isBlank_first (c : Char) (cs : List Char) :
    (first c cs).isBlank = true ↔ (Text.isBlank c || c = '#') = true := by
  unfold first
  split
  · rename_i h
    exact iff_of_true rfl h
  · rename_i h
    refine iff_of_false ?_ h
    split
    · exact Bool.false_ne_true
    · split
      · exact Bool.false_ne_true
      · split
        · exact Bool.false_ne_true
        · exact Bool.false_ne_true

/-- Behind the white space in front of a text stand its other lexemes. -/
theorem dropWhile_ofText (cs : List Char) :
    (ofText cs).dropWhile isBlank = ofText (cs.drop (blankRun false cs).length) := by
  have hnext : ∀ {d : Char} {ds : List Char}, Text.isBlank d = false → d ≠ '#' →
      (ofText (d :: ds)).dropWhile isBlank = ofText (d :: ds) := by
    intro d ds hd hc
    have hblank : ¬(first d ds).isBlank = true := by
      rw [isBlank_first]
      simp [hd, hc]
    rw [ofText, List.dropWhile_cons_of_neg hblank]
  cases cs with
  | nil => simp [ofText]
  | cons c cs =>
    by_cases hc : (Text.isBlank c || c = '#') = true
    · have hfirst : first c cs = .blank (blankRun false (c :: cs)) := if_pos hc
      rw [ofText, List.dropWhile_cons_of_pos ((isBlank_first c cs).mpr hc), hfirst]
      have hdrop : cs.drop ((blankRun false (c :: cs)).length - 1) =
          (c :: cs).drop (blankRun false (c :: cs)).length := by
        have hne := text_first_ne_nil c cs
        rw [hfirst] at hne
        obtain ⟨n, hn⟩ := Nat.exists_eq_succ_of_ne_zero (mt List.length_eq_zero_iff.mp hne)
        rw [show (blankRun false (c :: cs)).length = n + 1 from hn]
        rfl
      rw [show (Lexeme.blank (blankRun false (c :: cs))).text = blankRun false (c :: cs) from rfl,
        hdrop]
      rcases drop_blankRun (c :: cs) false with h | ⟨d, ds, h, hd, hne⟩
      · rw [h, ofText]
        rfl
      · rw [h]
        exact hnext hd hne
    · have hd : Text.isBlank c = false ∧ c ≠ '#' := by simpa using hc
      rw [blankRun_other hd.1 hd.2]
      exact hnext hd.1 hd.2

/-- The white space in front of a text. -/
theorem flatMap_text_takeWhile (cs : List Char) :
    ((ofText cs).takeWhile isBlank).flatMap text = blankRun false cs := by
  have hsplit := congrArg (List.flatMap text) (List.takeWhile_append_dropWhile (p := isBlank)
    (l := ofText cs))
  rw [List.flatMap_append, dropWhile_ofText, flatMap_text_ofText, flatMap_text_ofText] at hsplit
  have hrun := List.prefix_iff_eq_append.mp (blankRun_isPrefixOf cs false)
  exact List.append_cancel_right (hsplit.trans hrun.symm)

/-- Whether a text is white space that goes on with what follows. -/
def ClosedBlank (w : List Char) : Prop := ∀ cs, blankRun false (w ++ cs) = w ++ blankRun false cs

theorem ClosedBlank.append {v w : List Char} (hv : ClosedBlank v) (hw : ClosedBlank w) :
    ClosedBlank (v ++ w) := by
  intro cs
  rw [List.append_assoc, hv, hw, List.append_assoc]

/-- White space in front of a character is closed. -/
theorem closedBlank_of_append {w cs : List Char} {c : Char}
    (h : blankRun false (w ++ c :: cs) = w) : ClosedBlank w := blankRun_append h

theorem closedBlank_of_forall {w : List Char} (h : ∀ c ∈ w, Text.isBlank c = true) :
    ClosedBlank w := by
  intro cs
  induction w with
  | nil => rfl
  | cons c w ih =>
    rw [List.forall_mem_cons] at h
    rw [List.cons_append, blankRun_blank h.1, ih h.2, List.cons_append]

/-- **Closed white space in front of a text is passed over.** -/
theorem dropWhile_ofText_append {w : List Char} (h : ClosedBlank w) (cs : List Char) :
    (ofText (w ++ cs)).dropWhile isBlank = (ofText cs).dropWhile isBlank := by
  rw [dropWhile_ofText, dropWhile_ofText, h, List.length_append, ← List.drop_drop,
    List.drop_left]

/-- A lexeme that is not white space shows a character that is none. -/
theorem exists_not_blank {cs : List Char} {l : Lexeme} (hl : l ∈ ofText cs)
    (hb : l.isBlank = false) : ∃ c ∈ l.text, Text.isBlank c = false := by
  fun_induction ofText cs with
  | case1 => cases hl
  | case2 c cs ih =>
    rcases List.mem_cons.mp hl with rfl | hl
    · have hc : ¬(Text.isBlank c || c = '#') = true := by
        rw [← isBlank_first c cs, hb]
        exact Bool.false_ne_true
      obtain ⟨d, w, hw⟩ := List.exists_cons_of_ne_nil (text_first_ne_nil c cs)
      have hcons := text_first_append c cs
      rw [hw] at hcons
      obtain rfl := (List.cons.inj hcons).1
      refine ⟨d, by rw [hw]; exact List.mem_cons_self, ?_⟩
      simpa using (not_or.mp (fun h => hc ((Bool.or_eq_true _ _).mpr h))).1
    · exact ih hl

end Lexeme

end Netlist
