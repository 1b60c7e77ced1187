import Mathlib.Data.List.TakeWhile
import Netlist.Proofs.Tokens
import Netlist.Reading

/-!
# Segments of a source

Where the segments of a source begin and end depends on its lexemes alone: `Lexeme.chunks` cuts
them into chunks, each the white space in front of a segment with the segment. Reading a definition
without a limit on errors is then a fold: the draft takes in the segments of the chunks one after
the other (`Draft.takeAll`), and what is missing is reported behind the faults.

## Results

* `TokenStream.segment?_eq`: a stream answers the segment of the next chunk.
* `Reading.readOn_eq`: **a reading without a limit is a fold over the segments of its source.**
-/

namespace Netlist

/-! ## Chunks -/

/-- The lexemes of a segment, and the white space in front of it. -/
structure Chunk where
  blank : List Lexeme
  head : Lexeme
  tail : List Lexeme
deriving DecidableEq

namespace Chunk

/-- All lexemes of a chunk. -/
def lexemes (c : Chunk) : List Lexeme := c.blank ++ c.head :: c.tail

/-- The text of a chunk. -/
def text (c : Chunk) : List Char := c.lexemes.flatMap Lexeme.text

end Chunk

namespace Lexeme

/-- Whether a lexeme is the word that heads a section. -/
def isHeading : Lexeme → Bool
  | .word text =>
    match WordClass.ofText (String.ofList text) with
    | .heading _ => true
    | _ => false
  | _ => false

theorem isHeading_iff {t : NameTable} {l : Lexeme} :
    l.isHeading = true ↔ ∃ s w, l.kindOver t = .heading s w := by
  cases l with
  | word text =>
    cases hc : WordClass.ofText (String.ofList text) <;>
      simp [isHeading, kindOver, TokenKind.ofWord, hc]
  | mark c =>
    refine iff_of_false Bool.false_ne_true ?_
    rintro ⟨s, w, h⟩
    simp only [kindOver, TokenKind.ofMark] at h
    split at h <;> cases h
  | blank text => simp [isHeading, kindOver]
  | numeral text => simp [isHeading, kindOver]
  | arrow => simp [isHeading, kindOver]

/-- Whether the next lexeme that is not white space is a colon. -/
def colonFollows (ls : List Lexeme) : Bool := (ls.dropWhile isBlank).head? = some (.mark ':')

/-- Splits what follows the first lexeme of a segment: what belongs to the segment, and the rest. -/
def splitSegment (l : Lexeme) (ls : List Lexeme) : List Lexeme × List Lexeme :=
  if l = .mark ';' then ([], ls)
  else if l.isHeading && colonFollows ls then
    (ls.takeWhile isBlank ++ [.mark ':'], (ls.dropWhile isBlank).tail)
  else splitStop ls

/-- The first chunk and the rest; none if only white space is left. -/
def nextChunk? (ls : List Lexeme) : Option (Chunk × List Lexeme) :=
  match ls.dropWhile isBlank with
  | [] => none
  | l :: ms => some (⟨ls.takeWhile isBlank, l, (splitSegment l ms).1⟩, (splitSegment l ms).2)

variable {l : Lexeme} {ls rest : List Lexeme} {c : Chunk}

theorem dropWhile_eq_of_colonFollows (h : colonFollows ls = true) :
    ls.dropWhile isBlank = .mark ':' :: (ls.dropWhile isBlank).tail := by
  have h := of_decide_eq_true h
  obtain ⟨ms, hm⟩ := List.head?_eq_some_iff.mp h
  rw [hm, List.tail_cons]

theorem isBlank_of_mem_takeWhile (ls : List Lexeme) :
    ∀ l ∈ ls.takeWhile isBlank, l.isBlank = true := fun _ hl => List.mem_takeWhile_imp hl

theorem dropWhile_takeWhile_append (ls : List Lexeme) :
    (ls.takeWhile isBlank ++ [mark ':']).dropWhile isBlank = [.mark ':'] :=
  List.dropWhile_append_of_pos (isBlank_of_mem_takeWhile ls)

theorem takeWhile_takeWhile_append (ls : List Lexeme) :
    (ls.takeWhile isBlank ++ [mark ':']).takeWhile isBlank = ls.takeWhile isBlank := by
  rw [List.takeWhile_append_of_pos (isBlank_of_mem_takeWhile ls)]
  exact List.append_nil _

theorem colonFollows_takeWhile (ls : List Lexeme) :
    colonFollows (ls.takeWhile isBlank ++ [.mark ':']) = true := by
  unfold colonFollows
  rw [dropWhile_takeWhile_append]
  rfl

theorem colonFollows_of_prefix {ls ms : List Lexeme} (h : ms <+: ls)
    (hc : colonFollows ls = false) : colonFollows ms = false := by
  obtain ⟨us, rfl⟩ := h
  rw [Bool.eq_false_iff] at hc ⊢
  intro hm
  refine hc ?_
  have hd := dropWhile_eq_of_colonFollows hm
  unfold colonFollows
  rw [List.dropWhile_append, hd]
  rfl

theorem splitSegment_append (l : Lexeme) (ls : List Lexeme) :
    (splitSegment l ls).1 ++ (splitSegment l ls).2 = ls := by
  unfold splitSegment
  split
  · rfl
  · split
    · rename_i h
      have hc := dropWhile_eq_of_colonFollows (Bool.and_eq_true _ _ ▸ h).2
      rw [List.append_assoc, List.singleton_append, ← hc, List.takeWhile_append_dropWhile]
    · exact splitStop_append ls

/-- No lexeme is lost between chunks. -/
theorem lexemes_append_of_nextChunk? (h : nextChunk? ls = some (c, rest)) :
    c.lexemes ++ rest = ls := by
  unfold nextChunk? at h
  split at h
  · exact absurd h (by simp)
  · rename_i l ms hd
    cases h
    show (ls.takeWhile isBlank ++ l :: (splitSegment l ms).1) ++ (splitSegment l ms).2 = ls
    rw [List.append_assoc, List.cons_append, splitSegment_append, ← hd,
      List.takeWhile_append_dropWhile]

theorem length_lt_of_nextChunk? (h : nextChunk? ls = some (c, rest)) :
    rest.length < ls.length := by
  rw [← lexemes_append_of_nextChunk? h]
  unfold Chunk.lexemes
  simp only [List.length_append, List.length_cons]
  omega

theorem nextChunk?_eq_none_iff : nextChunk? ls = none ↔ ∀ l ∈ ls, l.isBlank = true := by
  unfold nextChunk?
  split
  · rename_i h
    exact iff_of_true rfl (List.dropWhile_eq_nil_iff.mp h)
  · rename_i l ms h
    refine iff_of_false (by simp) fun hall => ?_
    rw [List.dropWhile_eq_nil_iff.mpr hall] at h
    exact absurd h (by simp)

theorem isBlank_of_mem_blank (h : nextChunk? ls = some (c, rest)) :
    ∀ l ∈ c.blank, l.isBlank = true := by
  unfold nextChunk? at h
  split at h
  · exact absurd h (by simp)
  · cases h
    exact fun l hl => List.mem_takeWhile_imp hl

theorem isBlank_head (h : nextChunk? ls = some (c, rest)) : c.head.isBlank = false := by
  unfold nextChunk? at h
  split at h
  · exact absurd h (by simp)
  · rename_i l ms hd
    cases h
    have hnot := List.head?_dropWhile_not isBlank ls
    rw [hd] at hnot
    simpa using hnot

/-- Cuts lexemes into chunks. White space behind the last segment belongs to none. -/
def chunks (ls : List Lexeme) : List Chunk :=
  match _h : nextChunk? ls with
  | none => []
  | some (c, rest) => c :: chunks rest
termination_by ls.length
decreasing_by exact length_lt_of_nextChunk? _h

theorem chunks_of_none (h : nextChunk? ls = none) : chunks ls = [] := by
  unfold chunks
  split
  · rfl
  · rename_i c rest h'
    rw [h] at h'
    exact absurd h' (by simp)

theorem chunks_of_some (h : nextChunk? ls = some (c, rest)) : chunks ls = c :: chunks rest := by
  rw [chunks]
  split
  · rename_i h'
    rw [h] at h'
    exact absurd h' (by simp)
  · rename_i c' rest' h'
    rw [h] at h'
    cases h'
    rfl

end Lexeme

/-! ## Segments over a table -/

namespace Chunk

/-- Whether a chunk is a heading with its colon. -/
def isTitle (c : Chunk) : Bool := c.head.isHeading && Lexeme.colonFollows c.tail

/-- Whether a segment runs to the end of the input: it is no title, and there is no `;` in it. -/
structure Open (c : Chunk) : Prop where
  title : c.isTitle = false
  head : c.head ≠ .mark ';'
  tail : .mark ';' ∉ c.tail

/-- The position of the first token. -/
def headPosition (p : Position) (c : Chunk) : Position := p.after (c.blank.flatMap Lexeme.text)

/-- The tokens behind the first one, over a table. A colon behind a heading comes without the white
space in front of it. -/
def tailOver (t : NameTable) (p : Position) (l : Lexeme) (tail : List Lexeme) : List Token :=
  if l.isHeading && Lexeme.colonFollows tail then
    (Lexeme.tokensOver t p tail).dropWhile (·.kind = .space)
  else Lexeme.tokensOver t p tail

/-- The segment of a chunk that starts at a position, over a table. -/
def segmentOver (t : NameTable) (p : Position) (c : Chunk) : Segment where
  head := ⟨c.head.kindOver t, c.headPosition p⟩
  tail := tailOver t ((c.headPosition p).after c.head.text) c.head c.tail

/-- The segments of chunks that start at a position, over a table. -/
def segmentsOver (t : NameTable) (p : Position) : List Chunk → List Segment
  | [] => []
  | c :: cs => c.segmentOver t p :: segmentsOver t (p.after c.text) cs

end Chunk

namespace TokenStream

open NameTable (le_rfl le_trans)

variable {s : TokenStream} {t : NameTable}

theorem throughStop_eq (h : s.Sound) (ht : s.allNames ≤ t) :
    s.throughStop =
      (Lexeme.tokensOver t s.position (Lexeme.splitStop s.pending).1,
        s.behind (Lexeme.splitStop s.pending).1 (Lexeme.splitStop s.pending).2) := by
  have hle := interned_le_allNames (Lexeme.splitStop_append s.pending).symm
  unfold throughStop
  simp only [readAll_eq h (le_trans hle ht)]
  rfl

/-- The stream in front of a lexeme that is not white space. -/
theorem next_of_dropWhile (h : s.Sound) (ht : s.allNames ≤ t) {l : Lexeme} {ls : List Lexeme}
    (hd : s.pending.dropWhile Lexeme.isBlank = l :: ls) :
    let bs := s.pending.takeWhile Lexeme.isBlank
    s.next = (some ⟨l.kindOver t, s.position.after (bs.flatMap Lexeme.text)⟩,
      s.behind (bs ++ [l]) ls) := by
  have hp : s.pending = s.pending.takeWhile Lexeme.isBlank ++ l :: ls := by
    rw [← hd, List.takeWhile_append_dropWhile]
  have hl : l.isBlank = false := by
    have hnot := List.head?_dropWhile_not Lexeme.isBlank s.pending
    rw [hd] at hnot
    simpa using hnot
  exact next_eq h hp (fun b hb => List.mem_takeWhile_imp hb) hl ht

theorem next_of_blank (hd : s.pending.dropWhile Lexeme.isBlank = []) :
    s.next = (none, s.behind s.pending []) :=
  next_none (List.dropWhile_eq_nil_iff.mp hd)

theorem next_ne_colon (h : s.Sound) (ht : s.allNames ≤ t)
    (hc : Lexeme.colonFollows s.pending = false) (p : Position) :
    s.next.1 ≠ some ⟨.colon, p⟩ := by
  cases hd : s.pending.dropWhile Lexeme.isBlank with
  | nil =>
    rw [next_of_blank hd]
    simp
  | cons l ls =>
    rw [next_of_dropWhile h ht hd]
    intro he
    have hk : l.kindOver t = .colon := (Token.mk.inj (Option.some.inj he)).1
    unfold Lexeme.colonFollows at hc
    rw [hd, Lexeme.kindOver_eq_colon_iff.mp hk] at hc
    exact Bool.noConfusion hc

theorem dropWhile_tokensOver (p : Position) (ls : List Lexeme) :
    (Lexeme.tokensOver t p ls).dropWhile (·.kind = .space) =
      Lexeme.tokensOver t (p.after ((ls.takeWhile Lexeme.isBlank).flatMap Lexeme.text))
        (ls.dropWhile Lexeme.isBlank) := by
  induction ls generalizing p with
  | nil => rfl
  | cons l ls ih =>
    rw [Lexeme.tokensOver_cons]
    cases hb : l.isBlank with
    | true =>
      have hk := Lexeme.kindOver_eq_space_iff (t := t).mpr hb
      rw [List.dropWhile_cons_of_pos (by simp [hk]), ih, List.takeWhile_cons_of_pos hb,
        List.dropWhile_cons_of_pos hb, List.flatMap_cons, Position.after_append]
    | false =>
      have hk := Lexeme.kindOver_ne_space (t := t) hb
      rw [List.dropWhile_cons_of_neg (by simp [hk]), List.takeWhile_cons_of_neg (by simp [hb]),
        List.dropWhile_cons_of_neg (by simp [hb])]
      rfl

theorem segmentTail_eq (h : s.Sound) (ht : s.allNames ≤ t) (l : Lexeme) :
    s.segmentTail (l.kindOver t) =
      (Chunk.tailOver t s.position l (Lexeme.splitSegment l s.pending).1,
        s.behind (Lexeme.splitSegment l s.pending).1 (Lexeme.splitSegment l s.pending).2) := by
  unfold segmentTail Lexeme.splitSegment Chunk.tailOver
  split
  · rename_i hk
    have hl := Lexeme.kindOver_eq_semicolon_iff.mp hk
    subst hl
    rfl
  · rename_i sec w hk
    have hhead : l.isHeading = true := Lexeme.isHeading_iff.mpr ⟨sec, w, hk⟩
    have hne : l ≠ .mark ';' := fun hl => by
      rw [Lexeme.kindOver_eq_semicolon_iff.mpr hl] at hk
      cases hk
    rw [if_neg hne, hhead]
    cases hc : Lexeme.colonFollows s.pending with
    | true =>
      have hd := Lexeme.dropWhile_eq_of_colonFollows hc
      rw [next_of_dropWhile h ht hd]
      simp only [Bool.true_and, if_true, Lexeme.colonFollows_takeWhile, dropWhile_tokensOver,
        Lexeme.dropWhile_takeWhile_append, Lexeme.takeWhile_takeWhile_append]
      have hcolon : Lexeme.kindOver t (.mark ':') = .colon := rfl
      simp only [hcolon, Lexeme.tokensOver_cons, Lexeme.tokensOver_nil]
    | false =>
      have hsplit : Lexeme.colonFollows (Lexeme.splitStop s.pending).1 = false :=
        Lexeme.colonFollows_of_prefix ⟨_, Lexeme.splitStop_append s.pending⟩ hc
      simp only [Bool.true_and, Bool.false_eq_true, if_false, hsplit]
      rw [← throughStop_eq h ht]
      split
      · rename_i p s' hn
        have := next_ne_colon h ht hc p
        rw [hn] at this
        exact absurd rfl this
      · rfl
  · rename_i hstop hnot
    have hne : l ≠ .mark ';' := fun hl => hstop (Lexeme.kindOver_eq_semicolon_iff.mpr hl)
    have hhead : l.isHeading = false := by
      rw [Bool.eq_false_iff]
      intro hh
      obtain ⟨sec, w, hk⟩ := (Lexeme.isHeading_iff (t := t)).mp hh
      exact hnot sec w hk
    rw [if_neg hne, hhead]
    simp only [Bool.false_and, Bool.false_eq_true, if_false]
    exact throughStop_eq h ht

/-- **A stream answers the segment of the next chunk.** -/
theorem segment?_eq (h : s.Sound) (ht : s.allNames ≤ t) :
    s.segment? = (Lexeme.nextChunk? s.pending).map fun (c, rest) =>
      (c.segmentOver t s.position, s.behind c.lexemes rest) := by
  unfold segment? Lexeme.nextChunk?
  split
  · rename_i hn
    cases hd : s.pending.dropWhile Lexeme.isBlank with
    | nil => rfl
    | cons l ls =>
      rw [next_of_dropWhile h ht hd] at hn
      cases hn
  · rename_i tok s₁ hn
    cases hd : s.pending.dropWhile Lexeme.isBlank with
    | nil =>
      rw [next_of_blank hd] at hn
      cases hn
    | cons l ls =>
      rw [next_of_dropWhile h ht hd] at hn
      obtain ⟨rfl, rfl⟩ : _ ∧ _ := Prod.mk.inj hn |>.imp Option.some.inj id
      have hp : s.pending = (s.pending.takeWhile Lexeme.isBlank ++ [l]) ++ ls := by
        rw [List.append_assoc, List.singleton_append, ← hd, List.takeWhile_append_dropWhile]
      simp only
      rw [segmentTail_eq (h.behind _ _) (by rw [allNames_behind hp]; exact ht), behind_behind]
      simp [Chunk.segmentOver, Chunk.headPosition, Chunk.lexemes, TokenStream.behind,
        Position.after_append]

theorem segment?_eq_none_iff (h : s.Sound) :
    s.segment? = none ↔ Lexeme.nextChunk? s.pending = none := by
  rw [segment?_eq h le_rfl, Option.map_eq_none_iff]

/-- All segments of the unread rest, over the table that holds its words. -/
def segments (s : TokenStream) : List Segment :=
  Chunk.segmentsOver s.allNames s.position (Lexeme.chunks s.pending)

theorem segments_of_none (h : s.Sound) (hn : s.segment? = none) : s.segments = [] := by
  unfold segments
  rw [Lexeme.chunks_of_none ((segment?_eq_none_iff h).mp hn)]
  rfl

/-- What is left behind a segment. -/
theorem behind_of_segment? (h : s.Sound) {g : Segment} {s' : TokenStream}
    (hg : s.segment? = some (g, s')) :
    s'.Sound ∧ s'.allNames = s.allNames ∧ s.segments = g :: s'.segments := by
  rw [segment?_eq h le_rfl] at hg
  obtain ⟨⟨c, rest⟩, hc, he⟩ := Option.map_eq_some_iff.mp hg
  obtain ⟨rfl, rfl⟩ := Prod.mk.inj he
  have hnames : (s.behind c.lexemes rest).allNames = s.allNames :=
    allNames_behind (Lexeme.lexemes_append_of_nextChunk? hc).symm
  refine ⟨h.behind _ _, hnames, ?_⟩
  unfold segments
  rw [Lexeme.chunks_of_some hc, hnames]
  rfl

theorem names_of_segment?_none (h : s.Sound) (hn : s.segment? = none) : s.names = s.allNames := by
  have hb := Lexeme.nextChunk?_eq_none_iff.mp ((segment?_eq_none_iff h).mp hn)
  unfold allNames
  rw [flatMap_interned_of_blank hb]
  rfl

end TokenStream

/-! ## Reading as a fold -/

/-- Takes in segments one after the other: the faults in their order, and the draft behind them. -/
def Draft.takeAll (d : Draft) : List Segment → List Fault × Draft
  | [] => ([], d)
  | g :: gs =>
    let (fault?, d) := d.take g
    let (faults, d) := d.takeAll gs
    (fault?.toList ++ faults, d)

theorem Draft.takeAll_cons (d : Draft) (g : Segment) (gs : List Segment) :
    d.takeAll (g :: gs) = ((d.take g).1.toList ++ ((d.take g).2.takeAll gs).1,
      ((d.take g).2.takeAll gs).2) := rfl

/-- Reports faults in their order. -/
def DiagnosticLog.reportAll (log : DiagnosticLog) (faults : List Fault) : DiagnosticLog :=
  faults.foldl (fun log fault => log.report fault.problem.message fault.place) log

namespace DiagnosticLog

theorem count_add (log : DiagnosticLog) (message : String) (excerpt : Option Excerpt) :
    (log.add message excerpt).count = log.count + 1 := List.length_append

theorem count_reportAll (log : DiagnosticLog) (faults : List Fault) :
    (log.reportAll faults).count = log.count + faults.length := by
  induction faults generalizing log with
  | nil => rfl
  | cons fault faults ih =>
    show ((log.report _ _).reportAll faults).count = _
    rw [ih, report, count_add, List.length_cons]
    omega

theorem count_reportGlobals (log : DiagnosticLog) (problems : List Problem) :
    (problems.foldl (fun log p => log.reportGlobal p.message) log).count =
      log.count + problems.length := by
  induction problems generalizing log with
  | nil => rfl
  | cons problem problems ih =>
    rw [List.foldl_cons, ih, reportGlobal, count_add, List.length_cons]
    omega

end DiagnosticLog

namespace Reading

theorem clean_iff {r : Reading} : r.clean = true ↔ r.log.count = 0 := decide_eq_true_iff

theorem log_takeSegment (r : Reading) (g : Segment) (stream : TokenStream) :
    (r.takeSegment g stream).log = r.log.reportAll (r.draft.take g).1.toList := by
  unfold takeSegment goOn
  obtain ⟨fault?, d⟩ := r.draft.take g
  cases fault? <;> rfl

theorem limitReached_of_none {r : Reading} (h : r.limit = none) : r.limitReached = false := by
  unfold limitReached
  rw [h]

/-- **A reading without a limit is a fold over the segments of its source.** -/
theorem readOn_eq {r : Reading} (h : r.stream.Sound) (hl : r.limit = none) :
    ∃ stream : TokenStream, stream.names = r.stream.allNames ∧
      let taken := r.draft.takeAll r.stream.segments
      let r' : Reading := { r with stream, draft := taken.2, log := r.log.reportAll taken.1 }
      r.readOn = (r'.complete.clean, r'.complete.finish) := by
  fun_induction readOn r with
  | case1 r hn =>
    refine ⟨r.stream, TokenStream.names_of_segment?_none h hn, ?_⟩
    rw [TokenStream.segments_of_none h hn]
    rfl
  | case2 r g stream hg r' hr' =>
    rw [limitReached_of_none (show r'.limit = none from hl)] at hr'
    cases hr'
  | case3 r g stream hg r' hr' ih =>
    obtain ⟨hs, hnames, hseg⟩ := TokenStream.behind_of_segment? h hg
    obtain ⟨last, hlast, hread⟩ := ih hs hl
    refine ⟨last, hlast.trans hnames, ?_⟩
    rw [hread, hseg]
    have hlog : r'.log.reportAll (r'.draft.takeAll r'.stream.segments).1 =
        r.log.reportAll (r.draft.takeAll (g :: stream.segments)).1 := by
      show (r.takeSegment g stream).log.reportAll _ = _
      rw [log_takeSegment]
      exact List.foldl_append.symm
    simp only [hlog]
    rfl

end Reading

end Netlist
