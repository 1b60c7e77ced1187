import Netlist.Proofs.Layout
import Netlist.Proofs.Truncation

/-!
# The words of a source

A source has words and numbers, line by line, outside of comments: they are the runs of letters and
digits, where digits in front of letters are a number of their own. Reading a definition interns
every one of them once and in order, wherever it stands: in a statement, in what is skipped behind
an error, or between statements.

## Results

* `Lexeme.flatMap_interned_ofText`: the words that are interned for the lexemes of a text are the
  words of the text.
* `Reading.names_readOn`: the names behind a reading are those of the lexemes that were read.
* `check_names`: **every word of the source is read once, whatever the errors.**
-/

namespace Netlist

/-! ## Words of a text -/

namespace Text

/-- The part of a line in front of its comment. -/
def uncommented (line : List Char) : List Char := line.takeWhile (· ≠ '#')

/-- A run of letters and digits, cut in two: the digits in front, and the word behind them. -/
def runWords (run : List Char) : List String :=
  ([run.takeWhile Char.isDigit, run.dropWhile Char.isDigit].filter (· ≠ [])).map String.ofList

/-- The words and numbers of a line. -/
def lineWords (line : List Char) : List String :=
  ((uncommented line).splitOnP fun c => !c.isAlphanum).flatMap runWords

/-- The words and numbers of a text, outside of comments. -/
def words (cs : List Char) : List String := (cs.splitOn '\n').flatMap lineWords

variable {c : Char} {cs run line : List Char}

theorem head?_of_takeWhile {p : Char → Bool} (h : cs.takeWhile p = c :: run) : c ∈ cs.head? := by
  have hhead : (cs.takeWhile p).head? = cs.head?.filter p := List.head?_takeWhile
  rw [h, List.head?_cons] at hhead
  exact (Option.filter_eq_some_iff.mp hhead.symm).1

/-! ### One line -/

@[simp] theorem runWords_nil : runWords [] = [] := rfl

@[simp] theorem lineWords_nil : lineWords [] = [] := by
  unfold lineWords uncommented
  simp

/-- A character that is no letter, no digit and starts no comment only separates words. -/
theorem lineWords_cons_of_mark (hc : c.isAlphanum = false) (hhash : c ≠ '#') :
    lineWords (c :: line) = lineWords line := by
  unfold lineWords uncommented
  rw [List.takeWhile_cons_of_pos (by simp [hhash]), List.splitOnP_cons_eq_if_modifyHead,
    if_pos (by simp [hc]), List.flatMap_cons, runWords_nil, List.nil_append]

/-- There is no word in a comment. -/
theorem lineWords_cons_hash : lineWords ('#' :: line) = [] := by
  unfold lineWords uncommented
  rw [List.takeWhile_cons_of_neg (by simp)]
  simp

/-- A run at the front of a line, with no letter or digit behind it. -/
theorem lineWords_append_run (hrun : ∀ c ∈ run, c.isAlphanum = true)
    (hline : ∀ c ∈ line.head?, c.isAlphanum = false) :
    lineWords (run ++ line) = runWords run ++ lineWords line := by
  have hhash : ∀ c ∈ run, decide (c ≠ '#') = true := fun c hc => by
    rw [decide_eq_true_iff]
    rintro rfl
    exact absurd (hrun _ hc) (by decide)
  have hsep : ∀ c ∈ run, (!c.isAlphanum) = false := fun c hc => by rw [hrun c hc]; rfl
  unfold lineWords uncommented
  rw [List.takeWhile_append_of_pos hhash]
  cases hrest : line.takeWhile (· ≠ '#') with
  | nil =>
    rw [List.append_nil, List.splitOnP_eq_singleton hsep]
    simp
  | cons c rest =>
    have hhead : c ∈ line.head? := head?_of_takeWhile hrest
    have hc : (!c.isAlphanum) = true := by rw [hline c hhead]; rfl
    rw [List.splitOnP_append_cons_of_forall_mem hsep c hc,
      List.splitOnP_cons_eq_if_modifyHead, if_pos hc, List.flatMap_cons, List.flatMap_cons,
      runWords_nil, List.nil_append]

/-! ### All lines -/

@[simp] theorem words_nil : words [] = [] := by
  unfold words List.splitOn
  simp

/-- The words of the first line, and of what follows it. -/
theorem words_eq_line (cs : List Char) :
    words cs = lineWords (cs.takeWhile (· ≠ '\n')) ++ words (cs.dropWhile (· ≠ '\n')) := by
  have hline : ∀ c ∈ cs.takeWhile (· ≠ '\n'), (c == '\n') = false := fun c hc => by
    simpa using List.mem_takeWhile_imp hc
  cases hrest : cs.dropWhile (· ≠ '\n') with
  | nil =>
    have hcs : cs.takeWhile (· ≠ '\n') = cs := by
      have h := List.takeWhile_append_dropWhile (p := (· ≠ '\n')) (l := cs)
      rwa [hrest, List.append_nil] at h
    rw [hcs] at hline ⊢
    unfold words List.splitOn
    rw [List.splitOnP_eq_singleton hline]
    simp
  | cons c rest =>
    have hc : (c == '\n') = true := by
      have h := List.head?_dropWhile_not (· ≠ '\n') cs
      rw [hrest] at h
      simpa using h
    have hcs := List.takeWhile_append_dropWhile (p := (· ≠ '\n')) (l := cs)
    rw [hrest] at hcs
    unfold words List.splitOn
    conv_lhs => rw [← hcs]
    rw [List.splitOnP_append_cons_of_forall_mem hline c hc, List.splitOnP_cons_eq_if_modifyHead,
      if_pos hc, List.flatMap_cons, List.flatMap_cons, lineWords_nil, List.nil_append]

/-- A character that is no letter, no digit and starts no comment only separates words. -/
theorem words_cons_of_mark (hc : c.isAlphanum = false) (hhash : c ≠ '#') :
    words (c :: cs) = words cs := by
  by_cases hline : c = '\n'
  · unfold words List.splitOn
    rw [List.splitOnP_cons_eq_if_modifyHead, if_pos (by simp [hline]), List.flatMap_cons,
      lineWords_nil, List.nil_append]
  · rw [words_eq_line (c :: cs), List.takeWhile_cons_of_pos (by simp [hline]),
      List.dropWhile_cons_of_pos (by simp [hline]), lineWords_cons_of_mark hc hhash,
      ← words_eq_line]

/-- A comment goes to the end of its line. -/
theorem words_cons_hash : words ('#' :: cs) = words (cs.dropWhile (· ≠ '\n')) := by
  rw [words_eq_line ('#' :: cs), List.takeWhile_cons_of_pos (by simp),
    List.dropWhile_cons_of_pos (by simp), lineWords_cons_hash, List.nil_append]

/-- A run at the front of a text, with no letter or digit behind it. -/
theorem words_append_run (hrun : ∀ c ∈ run, c.isAlphanum = true)
    (hcs : ∀ c ∈ cs.head?, c.isAlphanum = false) :
    words (run ++ cs) = runWords run ++ words cs := by
  have hline : ∀ c ∈ run, decide (c ≠ '\n') = true := fun c hc => by
    rw [decide_eq_true_iff]
    rintro rfl
    exact absurd (hrun _ hc) (by decide)
  have hfirst : ∀ c ∈ (cs.takeWhile (· ≠ '\n')).head?, c.isAlphanum = false := fun c hc => by
    obtain ⟨rest, hrest⟩ := List.head?_eq_some_iff.mp hc
    exact hcs c (head?_of_takeWhile hrest)
  rw [words_eq_line (run ++ cs), List.takeWhile_append_of_pos hline,
    List.dropWhile_append_of_pos hline, lineWords_append_run hrun hfirst, List.append_assoc,
    ← words_eq_line]

/-- No letter is a digit. -/
theorem isDigit_of_isAlpha (hc : c.isAlpha = true) : c.isDigit = false := by
  rw [Bool.eq_false_iff]
  intro hd
  delta Char.isAlpha Char.isUpper Char.isLower at hc
  delta Char.isDigit at hd
  simp only [Bool.or_eq_true, Bool.and_eq_true, decide_eq_true_eq, UInt32.le_iff_toNat_le,
    ge_iff_le] at hc hd
  have hletters : 'A'.val.toNat = 65 ∧ 'a'.val.toNat = 97 := ⟨rfl, rfl⟩
  have hdigits : '9'.val.toNat = 57 := rfl
  omega

theorem head?_dropWhile_eq_false {p : Char → Bool} :
    ∀ c ∈ (cs.dropWhile p).head?, p c = false := by
  intro c hc
  have h := List.head?_dropWhile_not p cs
  rw [show (cs.dropWhile p).head? = some c from hc] at h
  exact h

/-- The words of a run start with its digits. -/
theorem runWords_append (hrun : ∀ c ∈ run, c.isDigit = true) (hne : run ≠ [])
    (hword : ∀ c ∈ cs.head?, c.isDigit = false) :
    runWords (run ++ cs) = String.ofList run :: runWords cs := by
  have htake : cs.takeWhile Char.isDigit = [] := by
    cases cs with
    | nil => rfl
    | cons c cs => exact List.takeWhile_cons_of_neg (by simp [hword c rfl])
  have hdrop : cs.dropWhile Char.isDigit = cs := by
    cases cs with
    | nil => rfl
    | cons c cs => exact List.dropWhile_cons_of_neg (by simp [hword c rfl])
  unfold runWords
  rw [List.takeWhile_append_of_pos hrun, List.dropWhile_append_of_pos hrun, htake, hdrop,
    List.append_nil, List.filter_cons_of_pos (by simpa using hne), List.map_cons]
  rfl

/-- A word at the front of a text. -/
theorem words_cons_letter (hc : c.isAlpha = true) (cs : List Char) :
    words (c :: cs) = String.ofList (c :: cs.takeWhile Char.isAlphanum) ::
      words (cs.dropWhile Char.isAlphanum) := by
  have hrun : ∀ d ∈ c :: cs.takeWhile Char.isAlphanum, d.isAlphanum = true := by
    intro d hd
    rcases List.mem_cons.mp hd with rfl | hd
    · rw [Char.isAlphanum, hc, Bool.true_or]
    · exact List.mem_takeWhile_imp hd
  have hword : runWords (c :: cs.takeWhile Char.isAlphanum) =
      [String.ofList (c :: cs.takeWhile Char.isAlphanum)] := by
    unfold runWords
    rw [List.takeWhile_cons_of_neg (by simp [isDigit_of_isAlpha hc]),
      List.dropWhile_cons_of_neg (by simp [isDigit_of_isAlpha hc])]
    rfl
  have hend : ∀ d ∈ (cs.dropWhile Char.isAlphanum).head?, d.isAlphanum = false :=
    head?_dropWhile_eq_false
  have hsplit := words_append_run hrun hend
  rwa [List.cons_append, List.takeWhile_append_dropWhile, hword, List.singleton_append] at hsplit

/-- Digits at the front of a text are a number, whatever stands behind them. -/
theorem words_cons_digit (hc : c.isDigit = true) (cs : List Char) :
    words (c :: cs) =
      String.ofList (c :: cs.takeWhile Char.isDigit) :: words (cs.dropWhile Char.isDigit) := by
  have hdigits : ∀ d ∈ c :: cs.takeWhile Char.isDigit, d.isDigit = true := by
    intro d hd
    rcases List.mem_cons.mp hd with rfl | hd
    · exact hc
    · exact List.mem_takeWhile_imp hd
  have hbehind : ∀ d ∈ (cs.dropWhile Char.isDigit).head?, d.isDigit = false :=
    head?_dropWhile_eq_false
  have hcs := List.takeWhile_append_dropWhile (p := Char.isDigit) (l := cs)
  generalize cs.dropWhile Char.isDigit = rest at hbehind hcs ⊢
  generalize cs.takeWhile Char.isDigit = digits at hdigits hcs ⊢
  subst hcs
  -- The run goes on behind the digits, and is cut there.
  have hword : ∀ d ∈ rest.takeWhile Char.isAlphanum, d.isAlphanum = true :=
    fun d hd => List.mem_takeWhile_imp hd
  have hrun : ∀ d ∈ (c :: digits) ++ rest.takeWhile Char.isAlphanum, d.isAlphanum = true := by
    intro d hd
    rcases List.mem_append.mp hd with hd | hd
    · rw [Char.isAlphanum, hdigits d hd, Bool.or_true]
    · exact hword d hd
  have hend : ∀ d ∈ (rest.dropWhile Char.isAlphanum).head?, d.isAlphanum = false :=
    head?_dropWhile_eq_false
  have hcut : ∀ d ∈ (rest.takeWhile Char.isAlphanum).head?, d.isDigit = false := fun d hd => by
    obtain ⟨more, hmore⟩ := List.head?_eq_some_iff.mp hd
    exact hbehind d (head?_of_takeWhile hmore)
  have hall := words_append_run hrun hend
  have hrest := words_append_run hword hend
  rw [List.takeWhile_append_dropWhile] at hrest
  rw [List.append_assoc, List.takeWhile_append_dropWhile,
    runWords_append hdigits (List.cons_ne_nil _ _) hcut] at hall
  exact hall.trans (congrArg (String.ofList (c :: digits) :: ·) hrest.symm)

example : words "AND g1=02x; # Q\n->Q".toList = ["AND", "g1", "02", "x", "Q"] := by decide

end Text

/-! ## Lexemes -/

namespace Lexeme

open Text (words)

/-- White space and comments have no words. -/
theorem words_drop_blankRun (cs : List Char) (inComment : Bool) :
    words (cs.drop (blankRun inComment cs).length) =
      words (if inComment then cs.dropWhile (· ≠ '\n') else cs) := by
  induction cs generalizing inComment with
  | nil => cases inComment <;> rfl
  | cons c cs ih =>
    unfold blankRun
    cases inComment with
    | true =>
      rw [if_pos rfl, if_pos rfl, List.length_cons, List.drop_succ_cons, ih]
      by_cases hc : c = '\n'
      · rw [if_neg (by simp [hc]), List.dropWhile_cons_of_neg (by simp [hc]),
          Text.words_cons_of_mark (by rw [hc]; rfl) (by rw [hc]; decide)]
      · rw [if_pos (by simp [hc]), List.dropWhile_cons_of_pos (by simp [hc])]
    | false =>
      rw [if_neg Bool.false_ne_true, if_neg Bool.false_ne_true]
      split
      · rename_i hc
        rw [List.length_cons, List.drop_succ_cons, ih, if_pos rfl, hc, Text.words_cons_hash]
      · rename_i hc
        split
        · rename_i hblank
          rw [List.length_cons, List.drop_succ_cons, ih, if_neg Bool.false_ne_true,
            Text.words_cons_of_mark (Text.isAlphanum_of_isBlank hblank) hc]
        · rfl

/-- The words of a text are that of its first lexeme, if it has one, and those behind it. -/
theorem words_of_first {c : Char} {cs rest : List Char} (h : (first c cs).text ++ rest = c :: cs) :
    words (c :: cs) = (first c cs).interned ++ words rest := by
  unfold first at h ⊢
  split at h
  · rename_i hspace
    rw [if_pos hspace]
    have hdrop : (blankRun false (c :: cs) ++ rest).drop (blankRun false (c :: cs)).length = rest :=
      List.drop_left
    rw [show blankRun false (c :: cs) ++ rest = c :: cs from h] at hdrop
    have hrest := words_drop_blankRun (c :: cs) false
    rw [if_neg Bool.false_ne_true, hdrop] at hrest
    exact hrest.symm
  · rename_i hspace
    rw [if_neg hspace]
    have hmark := (Bool.or_eq_false_iff).mp ((Bool.not_eq_true _).mp hspace)
    split at h
    · rename_i hletter
      rw [if_pos hletter, Text.words_cons_letter hletter]
      have hrest : cs.takeWhile Char.isAlphanum ++ rest = cs := (List.cons.inj h).2
      conv_rhs at hrest => rw [← List.takeWhile_append_dropWhile (p := Char.isAlphanum) (l := cs)]
      rw [List.append_cancel_left hrest]
      rfl
    · rename_i hletter
      rw [if_neg hletter]
      split at h
      · rename_i hdigit
        rw [if_pos hdigit, Text.words_cons_digit hdigit]
        have hrest : cs.takeWhile Char.isDigit ++ rest = cs := (List.cons.inj h).2
        conv_rhs at hrest => rw [← List.takeWhile_append_dropWhile (p := Char.isDigit) (l := cs)]
        rw [List.append_cancel_left hrest]
        rfl
      · rename_i hdigit
        rw [if_neg hdigit]
        have hplain : c.isAlphanum = false := by
          rw [Char.isAlphanum, (Bool.not_eq_true _).mp hletter, (Bool.not_eq_true _).mp hdigit]
          rfl
        rw [Text.words_cons_of_mark hplain (of_decide_eq_false hmark.2)]
        split at h
        · rename_i harrow
          rw [if_pos harrow, ← (List.cons.inj h).2]
          exact Text.words_cons_of_mark (by decide) (by decide)
        · rename_i harrow
          rw [if_neg harrow, ← (List.cons.inj h).2]
          rfl

/-- **The words that are interned for the lexemes of a text are the words of the text.** -/
theorem flatMap_interned_ofText (cs : List Char) : (ofText cs).flatMap interned = words cs := by
  fun_induction ofText cs with
  | case1 => exact Text.words_nil.symm
  | case2 c cs ih => rw [List.flatMap_cons, ih, words_of_first (text_first_append c cs)]

end Lexeme

/-! ## Reading -/

/-- The lexemes that a segment takes, and the names behind it. -/
theorem TokenStream.exists_lexemes_of_segment? {s s' : TokenStream} {g : Segment} (h : s.Sound)
    (hg : s.segment? = some (g, s')) : ∃ ls, s.pending = ls ++ s'.pending ∧
      s'.names = (s.names.internAll (ls.flatMap Lexeme.interned)).2 := by
  rw [segment?_eq h NameTable.le_rfl] at hg
  obtain ⟨⟨c, rest⟩, hc, he⟩ := Option.map_eq_some_iff.mp hg
  obtain ⟨-, rfl⟩ := Prod.mk.inj he
  exact ⟨c.lexemes, (Lexeme.lexemes_append_of_nextChunk? hc).symm, rfl⟩

/-- **The names behind a reading are those of the lexemes that were read**: of all that the stream
had, unless the reading stopped at its limit. -/
theorem Reading.names_readOn {r : Reading} (h : r.stream.Sound) :
    ∃ ls, ls <+: r.stream.pending ∧
      r.readOn.2.names = (r.names.internAll (ls.flatMap Lexeme.interned)).2 ∧
      (r.readOn.2.limitReached = false → ls = r.stream.pending) := by
  fun_induction readOn r with
  | case1 r hn =>
    exact ⟨r.stream.pending, List.prefix_refl _, TokenStream.names_of_segment?_none h hn,
      fun _ => rfl⟩
  | case2 r g stream hg r' hr' =>
    obtain ⟨ls, hp, hnames⟩ := TokenStream.exists_lexemes_of_segment? h hg
    refine ⟨ls, ⟨stream.pending, hp.symm⟩, hnames, fun hlimit => ?_⟩
    rw [show r'.finish.limitReached = r'.limitReached from rfl, hr'] at hlimit
    cases hlimit
  | case3 r g stream hg r' hr' ih =>
    obtain ⟨ls, hp, hnames⟩ := TokenStream.exists_lexemes_of_segment? h hg
    obtain ⟨ms, ⟨rest, hms⟩, hread, hall⟩ := ih (TokenStream.behind_of_segment? h hg).1
    have hms : ms ++ rest = stream.pending := hms
    refine ⟨ls ++ ms, ⟨rest, ?_⟩, ?_, fun hlimit => ?_⟩
    · rw [hp, List.append_assoc, hms]
    · rw [hread, List.flatMap_append, NameTable.internAll_append]
      exact congrArg (fun t : NameTable => (t.internAll (ms.flatMap Lexeme.interned)).2) hnames
    · rw [hp, hall hlimit]
      rfl

theorem Reading.limit_readOn (r : Reading) : r.readOn.2.limit = r.limit :=
  r.readOn_induction (P := fun last => last.limit = r.limit) (fun _ _ _ _ h => h) (fun _ h => h)
    (fun _ h => h) rfl

/-- A limit is reached when all the errors that it allows are there. -/
theorem Reading.limitReached_iff {r : Reading} :
    r.limitReached = true ↔ ∃ m ∈ r.limit, max 1 m ≤ r.log.count := by
  cases hlimit : r.limit with
  | none => simp [limitReached_of_none hlimit]
  | some m =>
    have hr : r = r.withLimit (some m) := by rw [← hlimit]; rfl
    rw [hr, limitReached_withLimit_iff]
    simp [withLimit]

/-! ## Checking -/

/-- The names of a check before its source is read: the pin words, the headings and the keywords. -/
def reservedNames : List String :=
  Pin.words ++ Section.all.map Section.heading ++ DeviceKind.all.map DeviceKind.keyword ++
    ["CON", "MON"]

/-- A check interns the reserved words, and the pin words among them only once. -/
theorem names_ofCheck (source : String) (limit : Option Nat) :
    (Reading.ofCheck source limit).names = (NameTable.empty.internAll reservedNames).2 := by
  have hkeywords : Keyword.all.map Keyword.word =
      DeviceKind.all.map DeviceKind.keyword ++ ["CON", "MON"] := rfl
  have hpins : ∀ w ∈ Vocabulary.pinWords,
      w ∈ (NameTable.empty.internAll reservedNames).2.names := by
    intro w hw
    refine NameTable.mem_internAll_iff.mpr (.inr ?_)
    unfold reservedNames
    simp only [List.append_assoc]
    exact List.mem_append_left _ ((Vocabulary.mem_pinWords_iff w).mp hw)
  show (TokenStream.ofLexemes _ _).names = _
  rw [TokenStream.names_ofLexemes, Vocabulary.intern_snd, Pins.intern_snd,
    ← NameTable.internAll_append]
  unfold Vocabulary.words
  rw [hkeywords, ← List.append_assoc, NameTable.internAll_append]
  have hreserved : Pin.words ++ (Section.all.map Section.heading ++
      (DeviceKind.all.map DeviceKind.keyword ++ ["CON", "MON"])) = reservedNames := by
    unfold reservedNames
    simp only [List.append_assoc]
  rw [hreserved]
  exact NameTable.internAll_of_subset hpins

/-- **Every word of the source is read once, whatever the errors.** The names behind a check are the
reserved words and then the words and numbers that were read, each where it stands first. All were
read, in broken statements and in skipped text too, unless the check has as many errors as its limit
allows; then a first part of them was read. -/
theorem check_names (source : String) (limit : Option Nat) :
    ∃ read, read <+: Text.words source.toList ∧
      ((∀ m ∈ limit, (check source limit).errorCount < max 1 m) →
        read = Text.words source.toList) ∧
      (check source limit).names.names = (reservedNames ++ read).eraseDups := by
  have hwords := Lexeme.flatMap_interned_ofText source.toList
  obtain ⟨ls, ⟨rest, hls⟩, hnames, hall⟩ :=
    Reading.names_readOn (Reading.sound_ofCheck source limit)
  rw [Reading.pending_ofCheck] at hls hall
  refine ⟨ls.flatMap Lexeme.interned, ⟨rest.flatMap Lexeme.interned, ?_⟩, fun hlimit => ?_, ?_⟩
  · rw [← List.flatMap_append, hls, hwords]
  · rw [hall ?_, hwords]
    rw [Bool.eq_false_iff, Ne, Reading.limitReached_iff, Reading.limit_readOn]
    rintro ⟨m, hm, hcount⟩
    have hfew := hlimit m hm
    rw [check_eq] at hfew
    exact absurd hfew (Nat.not_lt.mpr hcount)
  · rw [check_eq]
    show (Reading.ofCheck source limit).readOn.2.names.names = _
    rw [hnames, names_ofCheck, ← NameTable.internAll_append, NameTable.names_internAll]
    rfl

end Netlist
