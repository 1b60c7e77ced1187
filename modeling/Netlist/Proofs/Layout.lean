import Netlist.Proofs.Scanning

/-!
# Texts laid out anew

A text is laid out anew when each of its runs of white space and comments is replaced by another
one. Its lexemes are then the same but for the texts of the white space.

## Results

* `Relaid.map_plain_ofText`: **a text that is laid out anew has the same lexemes.**
-/

namespace Netlist

/-! ## Layouts -/

/-- White space in which a line feed ends every comment. -/
inductive IsLayout : List Char → Prop
  | nil : IsLayout []
  | blank {c : Char} {cs : List Char} (blank : Text.isBlank c = true) (rest : IsLayout cs) :
      IsLayout (c :: cs)
  | comment {body cs : List Char} (line : '\n' ∉ body) (rest : IsLayout cs) :
      IsLayout ('#' :: body ++ '\n' :: cs)

/-- A text, and the same text with each of its longest runs of white space and comments replaced by
another layout. -/
inductive Relaid : List Char → List Char → Prop
  | nil : Relaid [] []
  | char {c : Char} {cs cs' : List Char} (blank : Text.isBlank c = false) (hash : c ≠ '#')
      (rest : Relaid cs cs') : Relaid (c :: cs) (c :: cs')
  | run {w w' cs cs' : List Char} (run : Longest IsSpace w (w ++ cs)) (some : w ≠ [])
      (layout : IsLayout w') (some' : w' ≠ []) (rest : Relaid cs cs') :
      Relaid (w ++ cs) (w' ++ cs')

/-- The two texts may start with a text without white space. -/
theorem Relaid.append_left {cs cs' : List Char} (h : Relaid cs cs') {u : List Char}
    (hu : ∀ c ∈ u, Text.isBlank c = false ∧ c ≠ '#') : Relaid (u ++ cs) (u ++ cs') := by
  induction u with
  | nil => exact h
  | cons c u ih =>
    obtain ⟨⟨hblank, hhash⟩, hu⟩ := List.forall_mem_cons.mp hu
    exact .char hblank hhash (ih hu)

/-! ## Runs of white space -/

theorem Longest.unique {P : List Char → Prop} {v w input : List Char} (h : Longest P v input)
    (h' : Longest P w input) : v = w := by
  have hlength := Nat.le_antisymm (h'.longest v h.starts h.fits) (h.longest w h'.starts h'.fits)
  exact (List.prefix_of_prefix_length_le h.starts h'.starts (Nat.le_of_eq hlength)).eq_of_length
    hlength

theorem IsSpace.of_cons {c : Char} {cs : List Char} (h : IsSpace (c :: cs)) :
    (Text.isBlank c || c = '#') = true := by
  cases h with
  | blank hc _ => rw [hc]; rfl
  | comment => rw [decide_eq_true rfl, Bool.or_true]

theorem IsLayout.isSpace {w : List Char} (h : IsLayout w) : IsSpace w := by
  induction h with
  | nil => exact .nil
  | blank hc _ ih => exact .blank hc ih
  | comment hline _ ih => exact .comment hline (.inr rfl) (.blank (by decide) ih)

/-- A layout goes on with the white space behind it. -/
theorem IsLayout.closedBlank {w : List Char} (h : IsLayout w) : Lexeme.ClosedBlank w := by
  intro cs
  induction h with
  | nil => rfl
  | blank hc _ ih => rw [List.cons_append, Lexeme.blankRun_blank hc, ih, List.cons_append]
  | @comment body w hline _ ih =>
    show Lexeme.blankRun false ('#' :: (body ++ '\n' :: w ++ cs)) = _
    rw [List.append_assoc, Lexeme.blankRun_hash, Lexeme.blankRun_comment hline,
      List.cons_append, Lexeme.blankRun, if_pos rfl,
      decide_eq_false (not_not_intro rfl), ih]
    simp

/-- A layout is a longest run in front of a text that starts with no white space. -/
theorem IsLayout.longest {w cs : List Char} (h : IsLayout w)
    (hcs : Lexeme.blankRun false cs = []) : Longest IsSpace w (w ++ cs) := by
  have hrun := Lexeme.longest_blankRun (w ++ cs)
  rw [h.closedBlank, hcs, List.append_nil] at hrun
  exact hrun

namespace Lexeme

/-- What follows a longest run of white space starts with none. -/
theorem blankRun_behind {w cs : List Char} (h : Longest IsSpace w (w ++ cs)) :
    blankRun false cs = [] := by
  have hw : blankRun false (w ++ cs) = w := (longest_blankRun _).unique h
  have hdrop := drop_blankRun (w ++ cs) false
  rw [hw, List.drop_left] at hdrop
  rcases hdrop with rfl | ⟨d, ds, rfl, hblank, hhash⟩
  · rfl
  · exact blankRun_other hblank hhash ds

/-- A longest run of white space is the first lexeme. -/
theorem ofText_run {w cs : List Char} (h : Longest IsSpace w (w ++ cs)) (hw : w ≠ []) :
    ofText (w ++ cs) = .blank w :: ofText cs := by
  obtain ⟨c, u, rfl⟩ := List.exists_cons_of_ne_nil hw
  have hfirst : first c (u ++ cs) = .blank (c :: u) := by
    unfold first
    rw [if_pos h.fits.of_cons]
    exact congrArg Lexeme.blank ((longest_blankRun _).unique h)
  exact ofText_append hfirst rfl

/-- The lexeme without the text of its white space. -/
def plain : Lexeme → Lexeme
  | .blank _ => .blank []
  | l => l

end Lexeme

/-! ## What does not change -/

/-- White space is no letter and no digit. -/
theorem Text.isAlphanum_of_isBlank {c : Char} (h : isBlank c = true) : c.isAlphanum = false := by
  rw [Bool.eq_false_iff]
  intro ha
  simp only [isBlank, blankRanges, List.any_cons, List.any_nil, Bool.or_false, Bool.or_eq_true,
    Bool.and_eq_true, decide_eq_true_eq] at h
  delta Char.isAlphanum Char.isAlpha Char.isUpper Char.isLower Char.isDigit at ha
  simp only [Bool.or_eq_true, Bool.and_eq_true, decide_eq_true_eq, UInt32.le_iff_toNat_le,
    ge_iff_le] at ha
  have hletters : 'A'.val.toNat = 65 ∧ 'Z'.val.toNat = 90 ∧ 'a'.val.toNat = 97 ∧
      'z'.val.toNat = 122 := ⟨rfl, rfl, rfl, rfl⟩
  have hdigits : '0'.val.toNat = 48 ∧ '9'.val.toNat = 57 := ⟨rfl, rfl⟩
  have hcode : c.toNat = c.val.toNat := rfl
  omega

theorem isAlphanum_of_space {c : Char} (h : (Text.isBlank c || c = '#') = true) :
    c.isAlphanum = false := by
  rcases (Bool.or_eq_true _ _).mp h with h | h
  · exact Text.isAlphanum_of_isBlank h
  · rw [of_decide_eq_true h]
    decide

theorem isDigit_of_space {c : Char} (h : (Text.isBlank c || c = '#') = true) :
    c.isDigit = false :=
  ((Bool.or_eq_false_iff).mp (isAlphanum_of_space h)).2

namespace Relaid

variable {cs cs' : List Char}

theorem head?_eq_iff (h : Relaid cs cs') {d : Char} (hd : (Text.isBlank d || d = '#') = false) :
    cs.head? = some d ↔ cs'.head? = some d := by
  have hnot : ∀ {w us : List Char}, IsSpace w → w ≠ [] → (w ++ us).head? ≠ some d := by
    intro w us hspace hw he
    obtain ⟨c, u, rfl⟩ := List.exists_cons_of_ne_nil hw
    obtain rfl := Option.some.inj he
    rw [hspace.of_cons] at hd
    cases hd
  cases h with
  | nil => exact Iff.rfl
  | char => exact Iff.rfl
  | run hrun hw hlayout hw' _ =>
    exact iff_of_false (hnot hrun.fits hw) (hnot hlayout.isSpace hw')

/-- Neither text starts with white space, or both do. -/
theorem blankRun_eq_nil (h : Relaid cs cs') (hcs : Lexeme.blankRun false cs = []) :
    Lexeme.blankRun false cs' = [] := by
  cases h with
  | nil => rfl
  | char => exact Lexeme.blankRun_cons_eq_nil hcs _
  | run hrun hw _ _ _ =>
    rw [(Lexeme.longest_blankRun _).unique hrun] at hcs
    exact absurd hcs hw

/-- A run of characters without white space is the same in both texts. -/
theorem takeWhile (h : Relaid cs cs') {p : Char → Bool}
    (hp : ∀ c, (Text.isBlank c || c = '#') = true → p c = false) :
    cs'.takeWhile p = cs.takeWhile p ∧ Relaid (cs.dropWhile p) (cs'.dropWhile p) := by
  have hstop : ∀ {w us : List Char}, IsSpace w → w ≠ [] →
      (w ++ us).takeWhile p = [] ∧ (w ++ us).dropWhile p = w ++ us := by
    intro w us hspace hw
    obtain ⟨c, u, rfl⟩ := List.exists_cons_of_ne_nil hw
    have hc : ¬p c = true := by rw [hp c hspace.of_cons]; exact Bool.false_ne_true
    exact ⟨List.takeWhile_cons_of_neg hc, List.dropWhile_cons_of_neg hc⟩
  induction h with
  | nil => exact ⟨rfl, .nil⟩
  | @char c cs cs' hblank hhash hrest ih =>
    by_cases hc : p c = true
    · rw [List.takeWhile_cons_of_pos hc, List.takeWhile_cons_of_pos hc,
        List.dropWhile_cons_of_pos hc, List.dropWhile_cons_of_pos hc, ih.1]
      exact ⟨rfl, ih.2⟩
    · rw [List.takeWhile_cons_of_neg hc, List.takeWhile_cons_of_neg hc,
        List.dropWhile_cons_of_neg hc, List.dropWhile_cons_of_neg hc]
      exact ⟨rfl, .char hblank hhash hrest⟩
  | run hrun hw hlayout hw' hrest _ =>
    obtain ⟨htake, hdrop⟩ := hstop hrun.fits hw
    obtain ⟨htake', hdrop'⟩ := hstop hlayout.isSpace hw'
    rw [htake, htake', hdrop, hdrop']
    exact ⟨rfl, .run hrun hw hlayout hw' hrest⟩

/-- The first lexeme is the same if it is no white space, and the texts behind it are laid out
anew. -/
theorem first (h : Relaid cs cs') {c : Char} (hc : (Text.isBlank c || c = '#') = false) :
    Lexeme.first c cs' = Lexeme.first c cs ∧
      Relaid (cs.drop ((Lexeme.first c cs).text.length - 1))
        (cs'.drop ((Lexeme.first c cs).text.length - 1)) := by
  have hrun : ∀ {p : Char → Bool}, (∀ c, (Text.isBlank c || c = '#') = true → p c = false) →
      cs'.takeWhile p = cs.takeWhile p ∧
        Relaid (cs.drop (cs.takeWhile p).length) (cs'.drop (cs.takeWhile p).length) := by
    intro p hp
    have hdrop : ∀ us : List Char, us.drop (us.takeWhile p).length = us.dropWhile p := fun us =>
      List.append_cancel_left ((List.prefix_iff_eq_append.mp (List.takeWhile_prefix p)).trans
        List.takeWhile_append_dropWhile.symm)
    obtain ⟨htake, hrest⟩ := h.takeWhile hp
    refine ⟨htake, ?_⟩
    rw [hdrop, ← htake, hdrop]
    exact hrest
  have hnext := h.head?_eq_iff (d := '>') (by decide)
  unfold Lexeme.first
  simp only [hc, Bool.false_eq_true, if_false]
  by_cases hletter : c.isAlpha = true
  · rw [if_pos hletter, if_pos hletter]
    obtain ⟨htake, hrest⟩ := hrun (p := Char.isAlphanum) fun _ => isAlphanum_of_space
    exact ⟨by rw [htake], hrest⟩
  rw [if_neg hletter, if_neg hletter]
  by_cases hdigit : c.isDigit = true
  · rw [if_pos hdigit, if_pos hdigit]
    obtain ⟨htake, hrest⟩ := hrun (p := Char.isDigit) fun _ => isDigit_of_space
    exact ⟨by rw [htake], hrest⟩
  rw [if_neg hdigit, if_neg hdigit]
  simp only [← hnext, true_and]
  by_cases harrow : c = '-' ∧ cs.head? = some '>'
  · rw [if_pos harrow]
    obtain ⟨us, rfl⟩ := List.head?_eq_some_iff.mp harrow.2
    generalize hinput : '>' :: us = input at h
    cases h with
    | nil => cases hinput
    | char _ _ hrest =>
      cases hinput
      exact hrest
    | run hlongest hw _ _ _ =>
      obtain ⟨d, w, rfl⟩ := List.exists_cons_of_ne_nil hw
      have hspace := hlongest.fits.of_cons
      rw [← (List.cons.inj hinput).1] at hspace
      exact absurd hspace (by decide)
  · rw [if_neg harrow]
    exact h

/-- **A text that is laid out anew has the same lexemes**, but for the texts of its white space. -/
theorem map_plain_ofText (h : Relaid cs cs') :
    (Lexeme.ofText cs').map Lexeme.plain = (Lexeme.ofText cs).map Lexeme.plain := by
  induction hn : cs.length using Nat.strong_induction_on generalizing cs cs' with
  | _ n ih =>
    subst hn
    cases h with
    | nil => rfl
    | @char c cs cs' hblank hhash hrest =>
      have hc : (Text.isBlank c || c = '#') = false := by
        rw [hblank, decide_eq_false hhash, Bool.or_false]
      obtain ⟨hfirst, hbehind⟩ := hrest.first hc
      have htail := ih _ (by rw [List.length_drop, List.length_cons]; omega) hbehind rfl
      rw [Lexeme.ofText, Lexeme.ofText, hfirst, List.map_cons, List.map_cons, htail]
    | @run w w' cs cs' hrun hw hlayout hw' hrest =>
      have hlength := List.length_pos_of_ne_nil hw
      have htail := ih _ (by rw [List.length_append]; omega) hrest rfl
      have hrun' := hlayout.longest (hrest.blankRun_eq_nil (Lexeme.blankRun_behind hrun))
      rw [Lexeme.ofText_run hrun hw, Lexeme.ofText_run hrun' hw', List.map_cons, List.map_cons,
        htail]
      rfl

end Relaid

end Netlist
