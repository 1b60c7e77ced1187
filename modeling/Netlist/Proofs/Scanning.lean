import Mathlib.Data.List.Induction
import Netlist.Proofs.Checking
import Netlist.Proofs.Relexing

/-!
# What the scanner answers

The tokens of a source, white space included, told without the scanner: every token stands for a
piece of the source, the pieces put together are the source, and each is the longest one of its
class at its place.

## Results

* `Position.after_start`: lines and columns, counted in the text in front.
* `Lexeme.scans_first`: the first lexeme of a text is the longest of its class.
* `TokenStream.scanned_ofSource`: **what reading a source to its end answers.**
-/

namespace Netlist

/-! ## Positions -/

/-- The position behind a text: its line is 1 more than the line feeds, its column 1 more than the
characters behind the last of them. -/
def Position.ofPrefix (before : List Char) : Position :=
  ⟨1 + before.count '\n', 1 + (before.reverse.takeWhile (· ≠ '\n')).length⟩

/-- **Lines and columns are counted in the text in front.** -/
theorem Position.after_start (before : List Char) : start.after before = .ofPrefix before := by
  induction before using List.reverseRecOn with
  | nil => rfl
  | append_singleton before c ih =>
    rw [after_append, ih]
    unfold ofPrefix
    by_cases hc : c = '\n'
    · simp [hc, next, Nat.add_assoc]
    · simp [hc, next, Nat.add_comm]

/-! ## Classes of texts -/

/-- `text` is the longest text of a class that `input` starts with. -/
structure Longest (P : List Char → Prop) (text input : List Char) : Prop where
  starts : text <+: input
  fits : P text
  longest : ∀ p, p <+: input → P p → p.length ≤ text.length

/-- White space and comments. A comment goes up to the next line feed, or to the end. -/
inductive IsSpace : List Char → Prop
  | nil : IsSpace []
  | blank {c : Char} {cs : List Char} (blank : Text.isBlank c = true) (rest : IsSpace cs) :
      IsSpace (c :: cs)
  | comment {body cs : List Char} (line : '\n' ∉ body) (ended : cs = [] ∨ cs.head? = some '\n')
      (rest : IsSpace cs) : IsSpace ('#' :: body ++ cs)

/-- A letter followed by letters and digits. -/
def IsWord (text : List Char) : Prop :=
  ∃ c cs, text = c :: cs ∧ c.isAlpha = true ∧ ∀ d ∈ cs, d.isAlphanum = true

/-- Digits, at least one. -/
def IsNumber (text : List Char) : Prop := text ≠ [] ∧ ∀ d ∈ text, d.isDigit = true

/-- The token that the text `text` at the front of `input` is read as, over a table. -/
inductive Scans (t : NameTable) : TokenKind → List Char → List Char → Prop
  | space {text input : List Char} (run : Longest IsSpace text input) (some : text ≠ []) :
      Scans t .space text input
  | word {text input : List Char} {id : NameId} (run : Longest IsWord text input)
      (known : t.text? id = some (String.ofList text)) :
      Scans t (.ofWord ⟨id, String.ofList text⟩ (.ofText (String.ofList text))) text input
  | number {text input : List Char} {id : NameId} (run : Longest IsNumber text input)
      (known : t.text? id = some (String.ofList text)) :
      Scans t (.number ⟨id, String.ofList text⟩) text input
  | arrow {rest : List Char} : Scans t .arrow ['-', '>'] ('-' :: '>' :: rest)
  | comma {rest : List Char} : Scans t .comma [','] (',' :: rest)
  | semicolon {rest : List Char} : Scans t .semicolon [';'] (';' :: rest)
  | colon {rest : List Char} : Scans t .colon [':'] (':' :: rest)
  | dot {rest : List Char} : Scans t .dot ['.'] ('.' :: rest)
  | equal {rest : List Char} : Scans t .equal ['='] ('=' :: rest)
  | malformed {c : Char} {rest : List Char} (blank : Text.isBlank c = false)
      (letter : c.isAlpha = false) (digit : c.isDigit = false)
      (mark : c ∉ ['#', ',', ';', ':', '.', '=']) (arrow : c = '-' → rest.head? ≠ some '>') :
      Scans t .malformed [c] (c :: rest)

/-- Tokens of a text behind the text `before`: each stands for the next piece of the text, which is
not empty, and has the position of its first character. -/
inductive Scanned (t : NameTable) : List Char → List Token → List Char → Prop
  | nil {before : List Char} : Scanned t before [] []
  | cons {before text rest : List Char} {k : Token} {ks : List Token}
      (some : text ≠ []) (scans : Scans t k.kind text (text ++ rest))
      (position : k.position = .ofPrefix before) (more : Scanned t (before ++ text) ks rest) :
      Scanned t before (k :: ks) (text ++ rest)

/-! ## The longest texts -/

theorem longest_takeWhile {p : Char → Bool} (cs : List Char) :
    Longest (fun text => ∀ c ∈ text, p c = true) (cs.takeWhile p) cs where
  starts := List.takeWhile_prefix p
  fits _ hc := List.mem_takeWhile_imp hc
  longest text hprefix hfits := by
    obtain ⟨rest, rfl⟩ := hprefix
    rw [List.takeWhile_append_of_pos hfits, List.length_append]
    exact Nat.le_add_right _ _

theorem longest_word {c : Char} (hc : c.isAlpha = true) (cs : List Char) :
    Longest IsWord (c :: cs.takeWhile Char.isAlphanum) (c :: cs) := by
  obtain ⟨hstarts, hfits, hlongest⟩ := longest_takeWhile (p := Char.isAlphanum) cs
  refine ⟨List.cons_prefix_cons.mpr ⟨rfl, hstarts⟩, ⟨c, _, rfl, hc, hfits⟩, ?_⟩
  rintro _ hprefix ⟨d, ds, rfl, -, hds⟩
  obtain ⟨-, hprefix⟩ := List.cons_prefix_cons.mp hprefix
  exact Nat.succ_le_succ (hlongest ds hprefix hds)

theorem longest_number {c : Char} (hc : c.isDigit = true) (cs : List Char) :
    Longest IsNumber (c :: cs.takeWhile Char.isDigit) (c :: cs) := by
  obtain ⟨hstarts, hfits, hlongest⟩ := longest_takeWhile (p := Char.isDigit) (c :: cs)
  rw [List.takeWhile_cons_of_pos hc] at hstarts hfits hlongest
  exact ⟨hstarts, ⟨List.cons_ne_nil _ _, hfits⟩,
    fun text hprefix hnumber => hlongest text hprefix hnumber.2⟩

namespace Lexeme

/-- A run of white space is white space; one that starts inside of a comment ends it first. -/
theorem isSpace_blankRun (cs : List Char) :
    IsSpace (blankRun false cs) ∧ ∃ body rest, blankRun true cs = body ++ rest ∧ '\n' ∉ body ∧
      (rest = [] ∨ rest.head? = some '\n') ∧ IsSpace rest := by
  induction cs with
  | nil => exact ⟨.nil, [], [], rfl, List.not_mem_nil, .inl rfl, .nil⟩
  | cons c cs ih =>
    obtain ⟨hspace, body, rest, hrun, hline, hended, hrest⟩ := ih
    constructor
    · unfold blankRun
      rw [if_neg Bool.false_ne_true]
      split
      · rename_i hc
        rw [hc, hrun]
        exact .comment hline hended hrest
      · split
        · rename_i hblank
          exact .blank hblank hspace
        · exact .nil
    · unfold blankRun
      rw [if_pos rfl]
      by_cases hc : c = '\n'
      · subst hc
        exact ⟨[], _, rfl, List.not_mem_nil, .inr rfl, .blank (by decide) hspace⟩
      · rw [decide_eq_true hc, hrun]
        refine ⟨c :: body, rest, rfl, fun hm => ?_, hended, hrest⟩
        exact (List.mem_cons.mp hm).elim (fun he => hc he.symm) hline

/-- **A run of white space is the longest.** -/
theorem longest_blankRun (cs : List Char) : Longest IsSpace (blankRun false cs) cs := by
  refine ⟨blankRun_isPrefixOf cs false, (isSpace_blankRun cs).1, fun p hprefix hp => ?_⟩
  suffices h : p <+: blankRun false cs from h.length_le
  induction hp generalizing cs with
  | nil => exact List.nil_prefix
  | @blank c p hc _ ih =>
    obtain ⟨rest, rfl⟩ := hprefix
    rw [List.cons_append, blankRun_blank hc]
    exact List.cons_prefix_cons.mpr ⟨rfl, ih _ (List.prefix_append _ _)⟩
  | @comment body p hline hended _ ih =>
    obtain ⟨rest, rfl⟩ := hprefix
    have hrun := ih (p ++ rest) (List.prefix_append _ _)
    show '#' :: (body ++ p) <+: blankRun false ('#' :: (body ++ p ++ rest))
    rw [List.append_assoc, blankRun_hash, blankRun_comment hline]
    refine List.cons_prefix_cons.mpr ⟨rfl, (List.prefix_append_right_inj body).mpr ?_⟩
    rcases hended with rfl | hhead
    · exact List.nil_prefix
    · obtain ⟨q, rfl⟩ := List.head?_eq_some_iff.mp hhead
      exact hrun

/-! ## The first lexeme -/

/-- A character that starts no longer lexeme. -/
theorem scans_mark {t : NameTable} {c : Char} {cs : List Char} (hblank : Text.isBlank c = false)
    (hhash : c ≠ '#') (hletter : c.isAlpha = false) (hdigit : c.isDigit = false)
    (harrow : c = '-' → cs.head? ≠ some '>') : Scans t (.ofMark c) [c] (c :: cs) := by
  unfold TokenKind.ofMark
  split
  · exact .comma
  · exact .semicolon
  · exact .colon
  · exact .dot
  · exact .equal
  · exact .malformed hblank hletter hdigit (by simp only [List.mem_cons, List.not_mem_nil]; tauto)
      harrow

/-- **The first lexeme of a text is the longest of its class.** -/
theorem scans_first {t : NameTable} (c : Char) (cs : List Char) (h : t.Knows [first c cs]) :
    Scans t ((first c cs).kindOver t) (first c cs).text (c :: cs) := by
  have hknown : ∀ w ∈ (first c cs).interned, t.text? (t.idOf w) = some w := fun w hw =>
    NameTable.text?_idOf (h w (by rwa [List.flatMap_singleton]))
  have hsome := text_first_ne_nil c cs
  unfold first at hknown hsome ⊢
  split
  · rename_i hblank
    rw [if_pos hblank] at hsome
    exact .space (longest_blankRun _) hsome
  · rename_i hblank
    rw [if_neg hblank] at hknown
    rw [Bool.or_eq_true, not_or, Bool.not_eq_true, decide_eq_true_eq] at hblank
    split
    · rename_i hletter
      rw [if_pos hletter] at hknown
      exact .word (longest_word hletter cs) (hknown _ List.mem_cons_self)
    · rename_i hletter
      rw [if_neg hletter] at hknown
      split
      · rename_i hdigit
        rw [if_pos hdigit] at hknown
        exact .number (longest_number hdigit cs) (hknown _ List.mem_cons_self)
      · rename_i hdigit
        split
        · rename_i harrow
          obtain ⟨rfl, hnext⟩ := harrow
          obtain ⟨rest, rfl⟩ := List.head?_eq_some_iff.mp hnext
          exact .arrow
        · rename_i harrow
          exact scans_mark hblank.1 hblank.2 (Bool.not_eq_true _ ▸ hletter)
            (Bool.not_eq_true _ ▸ hdigit) fun hc hnext => harrow ⟨hc, hnext⟩

/-- The tokens of a text are what the text is read as. -/
theorem scanned_tokensOver {t : NameTable} (cs before : List Char) (h : t.Knows (ofText cs)) :
    Scanned t before (tokensOver t (.ofPrefix before) (ofText cs)) cs := by
  fun_induction ofText cs generalizing before with
  | case1 => exact .nil
  | case2 c cs ih =>
    obtain ⟨hfirst, hrest⟩ := NameTable.Knows.of_cons h
    have htext := text_first_append c cs
    have hmore := ih (before ++ (first c cs).text) hrest
    have hposition : (Position.ofPrefix before).after (first c cs).text =
        .ofPrefix (before ++ (first c cs).text) := by
      rw [← Position.after_start, ← Position.after_append, Position.after_start]
    rw [tokensOver_cons, hposition]
    generalize hinput : cs.drop ((first c cs).text.length - 1) = rest at htext hmore ⊢
    have hscans := scans_first c cs hfirst
    rw [← htext] at hscans ⊢
    exact .cons (text_first_ne_nil c cs) hscans rfl hmore

end Lexeme

/-! ## Reading to the end -/

namespace TokenStream

open Lexeme (tokensOver tokensOver_cons)

/-- Reads all tokens, white space included, and stops at the end. -/
def rawAll (s : TokenStream) : List Token × TokenStream :=
  match _h : s.nextRaw with
  | (none, s) => ([], s)
  | (some t, s) =>
    let (ts, last) := s.rawAll
    (t :: ts, last)
termination_by s.pending.length
decreasing_by exact Nat.lt_of_succ_le (Nat.le_of_eq (length_pending_nextRaw _h))

/-- A stream is read to its end as the tokens of its lexemes. -/
theorem rawAll_eq {s : TokenStream} {t : NameTable} (h : s.Sound) (ht : s.allNames ≤ t) :
    s.rawAll = (tokensOver t s.position s.pending, s.behind s.pending []) := by
  generalize hp : s.pending = ls
  induction ls generalizing s with
  | nil =>
    have hend := nextRaw_nil hp
    have hbehind := s.behind_nil
    rw [hp] at hbehind
    rw [rawAll]
    split
    · rename_i hn
      rw [hend] at hn
      cases hn
      rw [hbehind]
      rfl
    · rename_i hn
      rw [hend] at hn
      cases hn
  | cons l ls ih =>
    have hnext := nextRaw_eq h hp ht
    have hall : (s.behind [l] ls).allNames = s.allNames := allNames_behind hp
    have hrest := ih (h.behind [l] ls) (by rw [hall]; exact ht) rfl
    rw [rawAll]
    split
    · rename_i hn
      rw [hnext] at hn
      cases hn
    · rename_i hn
      rw [hnext] at hn
      cases hn
      rw [hrest, behind_behind]
      simp only [TokenStream.behind, List.flatMap_singleton, tokensOver_cons, List.singleton_append]

/-- A source is read to its end as the tokens of its lexemes, from the first line and column on. -/
theorem rawAll_ofSource (source : String) (names : NameTable) :
    (ofSource source names).rawAll =
      (tokensOver (ofSource source names).allNames .start (Lexeme.ofText source.toList),
        (ofSource source names).behind (Lexeme.ofText source.toList) []) := by
  have hs : (ofSource source names).Sound := sound_ofLexemes _ _
  have hp : (ofSource source names).pending = Lexeme.ofText source.toList := pending_ofLexemes _ _
  have hstart : (ofSource source names).position = .start := position_ofLexemes _ _
  rw [rawAll_eq hs NameTable.le_rfl, hp, hstart]

/-- What reading a source to its end answers are the tokens of its text. -/
theorem scanned_rawAll (source : String) (names : NameTable) :
    Scanned (ofSource source names).rawAll.2.names [] (ofSource source names).rawAll.1
      source.toList := by
  have hp : (ofSource source names).pending = Lexeme.ofText source.toList := pending_ofLexemes _ _
  have hknows := knows_allNames (ofSource source names) fun _ hl => hl
  rw [hp] at hknows
  have hnames : (ofSource source names).rawAll.2.names = (ofSource source names).allNames := by
    rw [rawAll_ofSource]
    unfold allNames
    rw [hp]
    rfl
  rw [hnames, rawAll_ofSource]
  exact Lexeme.scanned_tokensOver source.toList [] hknows

/-- Behind a source, the position has counted all its characters. -/
theorem position_rawAll (source : String) (names : NameTable) :
    (ofSource source names).rawAll.2.position = Position.start.after source.toList := by
  have hstart : (ofSource source names).position = .start := position_ofLexemes _ _
  rw [rawAll_ofSource]
  show (ofSource source names).position.after
    ((Lexeme.ofText source.toList).flatMap Lexeme.text) = _
  rw [hstart, Lexeme.flatMap_text_ofText]

/-- **What reading a source to its end answers**: tokens whose pieces put together are the source,
each the longest of its class and at its position. The end has the position behind the source, and
reading at the end changes nothing. -/
theorem scanned_ofSource (source : String) (names : NameTable) :
    let read := (ofSource source names).rawAll
    Scanned read.2.names [] read.1 source.toList ∧ read.2.position = .ofPrefix source.toList ∧
      read.2.nextRaw = (none, read.2) ∧ read.2.next = (none, read.2) := by
  intro read
  have hpending : read.2.pending = [] := by
    show (ofSource source names).rawAll.2.pending = []
    rw [rawAll_ofSource]
    rfl
  refine ⟨scanned_rawAll source names, ?_, nextRaw_nil hpending, ?_⟩
  · exact (position_rawAll source names).trans (Position.after_start _)
  · have hnext := next_none (s := read.2) (by simp [hpending])
    have hbehind := read.2.behind_nil
    rw [hpending] at hnext hbehind
    rw [hnext, hbehind]

end TokenStream

end Netlist
