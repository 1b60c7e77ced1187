import Netlist.Text.Blank

/-!
# Lexemes

A source text is cut into lexemes from left to right, each as long as its class allows. Blank runs
take comments with them: a comment goes from `#` up to the next line feed, which is blank itself.
No character is lost: the texts of the lexemes put together are the source.

`scan` and `skip_whitespace_and_comments` cut the text while it is read. Where a cut falls depends
on the text alone, so here it is made before any token is asked for.

## Results

* `flatMap_text_ofText`: the lexemes of a text, written one behind the other, are the text.
-/

namespace Netlist

/-- The pieces that a source text is cut into. -/
inductive Lexeme
  /-- White space and comments. -/
  | blank (text : List Char)
  /-- A letter followed by letters and digits. -/
  | word (text : List Char)
  /-- A run of digits. -/
  | numeral (text : List Char)
  /-- The pair `->`. -/
  | arrow
  /-- Any other character. -/
  | mark (c : Char)
deriving DecidableEq, Repr

namespace Lexeme

/-- The characters of a lexeme. -/
def text : Lexeme → List Char
  | .blank text | .word text | .numeral text => text
  | .arrow => ['-', '>']
  | .mark c => [c]

/-- Whether a lexeme is white space and comments. -/
def isBlank : Lexeme → Bool
  | .blank _ => true
  | _ => false

/-- The longest run of white space and comments at the front, read inside a comment or not
(`skip_whitespace_and_comments`). -/
def blankRun (inComment : Bool) : List Char → List Char
  | [] => []
  | c :: cs =>
    if inComment then c :: blankRun (c ≠ '\n') cs
    else if c = '#' then c :: blankRun true cs
    else if Text.isBlank c then c :: blankRun false cs
    else []

/-- The first lexeme of the text `c :: cs` (`scan`, with `read_while` for words and numerals). -/
def first (c : Char) (cs : List Char) : Lexeme :=
  if Text.isBlank c || c = '#' then .blank (blankRun false (c :: cs))
  else if c.isAlpha then .word (c :: cs.takeWhile Char.isAlphanum)
  else if c.isDigit then .numeral (c :: cs.takeWhile Char.isDigit)
  else if c = '-' ∧ cs.head? = some '>' then .arrow
  else .mark c

/-- Cuts a text into lexemes. -/
def ofText : List Char → List Lexeme
  | [] => []
  | c :: cs => first c cs :: ofText (cs.drop ((first c cs).text.length - 1))
termination_by cs => cs.length
decreasing_by
  rw [List.length_drop, List.length_cons]
  omega

/-! ## No character is lost -/

theorem blankRun_isPrefixOf (cs : List Char) :
    ∀ inComment, blankRun inComment cs <+: cs := by
  induction cs with
  | nil => exact fun _ => List.prefix_refl []
  | cons c cs ih =>
    intro inComment
    unfold blankRun
    split
    · exact List.cons_prefix_cons.mpr ⟨rfl, ih _⟩
    · split
      · exact List.cons_prefix_cons.mpr ⟨rfl, ih _⟩
      · split
        · exact List.cons_prefix_cons.mpr ⟨rfl, ih _⟩
        · exact List.nil_prefix

theorem text_first_isPrefixOf (c : Char) (cs : List Char) : (first c cs).text <+: c :: cs := by
  unfold first
  split
  · exact blankRun_isPrefixOf (c :: cs) false
  · split
    · exact List.cons_prefix_cons.mpr ⟨rfl, List.takeWhile_prefix _⟩
    · split
      · exact List.cons_prefix_cons.mpr ⟨rfl, List.takeWhile_prefix _⟩
      · split
        · rename_i h
          obtain ⟨ds, rfl⟩ : ∃ ds, cs = '>' :: ds := by
            cases cs with
            | nil => exact absurd h.2 (by simp)
            | cons d ds => exact ⟨ds, by rw [Option.some.inj h.2]⟩
          exact ⟨ds, by rw [h.1]; rfl⟩
        · exact ⟨cs, rfl⟩

theorem text_first_ne_nil (c : Char) (cs : List Char) : (first c cs).text ≠ [] := by
  unfold first
  split
  · rename_i h
    show blankRun false (c :: cs) ≠ []
    unfold blankRun
    rcases (Bool.or_eq_true _ _).mp h with h | h
    · by_cases hc : c = '#'
      · simp [hc]
      · simp [hc, h]
    · simp [of_decide_eq_true h]
  · split
    · exact List.cons_ne_nil _ _
    · split
      · exact List.cons_ne_nil _ _
      · split
        · exact List.cons_ne_nil _ _
        · exact List.cons_ne_nil _ _

theorem text_first_append (c : Char) (cs : List Char) :
    (first c cs).text ++ cs.drop ((first c cs).text.length - 1) = c :: cs := by
  have h := List.prefix_iff_eq_append.mp (text_first_isPrefixOf c cs)
  obtain ⟨d, ds, hd⟩ := List.exists_cons_of_ne_nil (text_first_ne_nil c cs)
  rw [hd] at h ⊢
  exact h

theorem flatMap_text_ofText (cs : List Char) : (ofText cs).flatMap text = cs := by
  fun_induction ofText cs with
  | case1 => rfl
  | case2 c cs ih =>
    rw [List.flatMap_cons, ih]
    exact text_first_append c cs

end Lexeme

end Netlist
