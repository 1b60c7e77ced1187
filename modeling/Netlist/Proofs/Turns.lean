import Mathlib.Algebra.GroupWithZero.Nat
import Mathlib.Data.List.SplitLengths
import Netlist.Proofs.Recovery
import Netlist.Session

/-!
# The turns of the parser

Where the tokens of a source are cut is decided by their roles: whether a token is a heading, a
colon, a `;` or none of these. The turns of the parser follow this cut, whatever was declared before
and whatever errors are found.

## Results

* `Lexeme.length_roles_chunk`: the first chunk has as many tokens as the roles say.
* `Session.segments_of_parse`: **the turns of the parser cut the tokens of a source into segments.**
-/

namespace Netlist

/-! ## Roles of tokens -/

/-- What a token means for where segments end. -/
inductive TokenRole
  | heading | colon | stop | other
deriving DecidableEq, Repr

/-- The role of a token of a kind. -/
def TokenKind.role : TokenKind → TokenRole
  | .heading _ _ => .heading
  | .colon => .colon
  | .semicolon => .stop
  | _ => .other

namespace TokenRole

/-- The number of tokens in the first segment: a heading with its colon are two, and any other
segment goes through the first `;`, or to the end if there is none. -/
def firstLength : List TokenRole → Nat
  | .heading :: .colon :: _ => 2
  | rs => min (rs.idxOf .stop + 1) rs.length

theorem firstLength_cons_pos (r : TokenRole) (rs : List TokenRole) :
    0 < firstLength (r :: rs) := by
  unfold firstLength
  split
  · omega
  · rw [List.length_cons]
    omega

/-- The numbers of tokens in the segments. -/
def segmentLengths : List TokenRole → List Nat
  | [] => []
  | r :: rs =>
    firstLength (r :: rs) :: segmentLengths ((r :: rs).drop (firstLength (r :: rs)))
termination_by rs => rs.length
decreasing_by
  have h := firstLength_cons_pos r rs
  rw [List.length_drop, List.length_cons]
  omega

theorem segmentLengths_of_ne_nil {rs : List TokenRole} (h : rs ≠ []) :
    segmentLengths rs = firstLength rs :: segmentLengths (rs.drop (firstLength rs)) := by
  cases rs with
  | nil => exact absurd rfl h
  | cons r rs => rw [segmentLengths]

theorem firstLength_le (rs : List TokenRole) : firstLength rs ≤ rs.length := by
  unfold firstLength
  split
  · simp only [List.length_cons]
    omega
  · exact Nat.min_le_right _ _

theorem sum_segmentLengths (rs : List TokenRole) : (segmentLengths rs).sum = rs.length := by
  fun_induction segmentLengths rs with
  | case1 => rfl
  | case2 r rs ih =>
    have hle := firstLength_le (r :: rs)
    rw [List.sum_cons, ih, List.length_drop]
    omega

theorem pos_of_mem_segmentLengths {rs : List TokenRole} {n : Nat} (h : n ∈ segmentLengths rs) :
    0 < n := by
  fun_induction segmentLengths rs with
  | case1 => exact absurd h (by simp)
  | case2 r rs ih =>
    rcases List.mem_cons.mp h with rfl | h
    · exact firstLength_cons_pos r rs
    · exact ih h

end TokenRole

namespace Lexeme

/-- The role of the token of a lexeme. -/
def role (l : Lexeme) : TokenRole :=
  if l = .mark ';' then .stop
  else if l = .mark ':' then .colon
  else if l.isHeading then .heading
  else .other

theorem role_kindOver (t : NameTable) (l : Lexeme) : (l.kindOver t).role = l.role := by
  unfold role
  split
  · rename_i h
    rw [kindOver_eq_semicolon_iff.mpr h]
    rfl
  · rename_i hs
    split
    · rename_i h
      rw [kindOver_eq_colon_iff.mpr h]
      rfl
    · rename_i hc
      split
      · rename_i h
        obtain ⟨s, w, hk⟩ := (isHeading_iff (t := t)).mp h
        rw [hk]
        rfl
      · rename_i hh
        unfold TokenKind.role
        split
        · rename_i s w hk
          exact absurd (isHeading_iff.mpr ⟨s, w, hk⟩) hh
        · rename_i hk
          exact absurd (kindOver_eq_colon_iff.mp hk) hc
        · rename_i hk
          exact absurd (kindOver_eq_semicolon_iff.mp hk) hs
        · rfl

theorem role_ne_stop {l : Lexeme} (h : l ≠ .mark ';') : l.role ≠ .stop := by
  unfold role
  rw [if_neg h]
  split
  · exact TokenRole.noConfusion
  · split <;> exact TokenRole.noConfusion

/-- The roles of lexemes that are not white space. -/
def roles (ls : List Lexeme) : List TokenRole := (ls.filter (!·.isBlank)).map role

theorem roles_append (ls ms : List Lexeme) : roles (ls ++ ms) = roles ls ++ roles ms := by
  unfold roles
  rw [List.filter_append, List.map_append]

theorem roles_eq_nil_iff {ls : List Lexeme} : roles ls = [] ↔ ∀ l ∈ ls, l.isBlank = true := by
  unfold roles
  rw [List.map_eq_nil_iff, List.filter_eq_nil_iff]
  simp

theorem roles_of_blank {bs : List Lexeme} (h : ∀ b ∈ bs, b.isBlank = true) : roles bs = [] :=
  roles_eq_nil_iff.mpr h

theorem roles_cons {l : Lexeme} (h : l.isBlank = false) (ls : List Lexeme) :
    roles (l :: ls) = l.role :: roles ls := by
  unfold roles
  rw [List.filter_cons_of_pos (by simp [h]), List.map_cons]

theorem length_roles_splitStop (ls : List Lexeme) :
    (roles (splitStop ls).1).length = min ((roles ls).idxOf .stop + 1) (roles ls).length := by
  induction ls with
  | nil => rfl
  | cons l ls ih =>
    by_cases hl : l = .mark ';'
    · subst hl
      rw [splitStop, if_pos rfl]
      simp [roles, isBlank, role]
    · rw [splitStop, if_neg hl]
      cases hb : l.isBlank with
      | true =>
        have hskip : ∀ ms, roles (l :: ms) = roles ms := fun ms =>
          (roles_append [l] ms).trans (by rw [roles_of_blank (by simpa using hb)]; rfl)
        rw [hskip, hskip, ih]
      | false =>
        rw [roles_cons hb, roles_cons hb, List.length_cons, List.length_cons, ih,
          List.idxOf_cons_ne _ (role_ne_stop hl)]
        omega

variable {ls rest : List Lexeme} {c : Chunk}

theorem role_eq_heading_iff {l : Lexeme} (h : l ≠ .mark ';') :
    l.role = .heading ↔ l.isHeading = true := by
  unfold role
  rw [if_neg h]
  split
  · rename_i hc
    rw [hc]
    exact iff_of_false TokenRole.noConfusion Bool.false_ne_true
  · split
    · exact iff_of_true rfl ‹_›
    · exact iff_of_false TokenRole.noConfusion ‹_›

theorem roles_of_dropWhile {l : Lexeme} {ms : List Lexeme} (h : ls.dropWhile isBlank = l :: ms) :
    roles ls = l.role :: roles ms := by
  have hl := List.head?_dropWhile_not isBlank ls
  rw [h] at hl
  calc roles ls = roles (ls.takeWhile isBlank ++ ls.dropWhile isBlank) := by
        rw [List.takeWhile_append_dropWhile]
    _ = roles (l :: ms) := by
        rw [roles_append, roles_of_blank (isBlank_of_mem_takeWhile ls), h, List.nil_append]
    _ = l.role :: roles ms := roles_cons (by simpa using hl) ms

theorem head?_roles_eq_colon_iff : (roles ls).head? = some .colon ↔ colonFollows ls = true := by
  unfold colonFollows
  cases h : ls.dropWhile isBlank with
  | nil =>
    rw [roles_of_blank (List.dropWhile_eq_nil_iff.mp h)]
    simp
  | cons l ms =>
    rw [roles_of_dropWhile h]
    simp only [List.head?_cons, Option.some.injEq, decide_eq_true_eq]
    unfold role
    split
    · rename_i hl
      simp [hl]
    · split
      · simp [*]
      · split <;> simp [*]

theorem firstLength_of_head? {rs : List TokenRole}
    (h : rs.head? = some .heading → rs.tail.head? ≠ some .colon) :
    TokenRole.firstLength rs = min (rs.idxOf .stop + 1) rs.length := by
  unfold TokenRole.firstLength
  split
  · exact absurd rfl (h rfl)
  · rfl

theorem length_roles_splitSegment (l : Lexeme) (ms : List Lexeme) :
    (roles (splitSegment l ms).1).length + 1 = TokenRole.firstLength (l.role :: roles ms) := by
  unfold splitSegment
  split
  · rename_i hl
    rw [hl, firstLength_of_head? (by simp [role])]
    simp [role, roles]
  · rename_i hl
    split
    · rename_i h
      obtain ⟨hh, hc⟩ := (Bool.and_eq_true _ _).mp h
      obtain ⟨rs, hrs⟩ := List.head?_eq_some_iff.mp (head?_roles_eq_colon_iff.mpr hc)
      rw [(role_eq_heading_iff hl).mpr hh, hrs, roles_append,
        roles_of_blank (isBlank_of_mem_takeWhile ms)]
      rfl
    · rename_i h
      rw [firstLength_of_head?, length_roles_splitStop, List.idxOf_cons_ne _ (role_ne_stop hl),
        List.length_cons]
      · omega
      · intro hh hc
        refine h ((Bool.and_eq_true _ _).mpr ⟨?_, head?_roles_eq_colon_iff.mp hc⟩)
        exact (role_eq_heading_iff hl).mp (Option.some.inj hh)

/-- The first chunk has as many tokens as the roles say. -/
theorem length_roles_chunk (h : nextChunk? ls = some (c, rest)) :
    (roles c.lexemes).length = TokenRole.firstLength (roles ls) := by
  have hblank := isBlank_of_mem_blank h
  have hhead := isBlank_head h
  unfold nextChunk? at h
  split at h
  · exact absurd h (by simp)
  · rename_i l ms hd
    cases h
    rw [Chunk.lexemes, roles_append, roles_of_blank hblank, List.nil_append, roles_cons hhead,
      roles_of_dropWhile hd, List.length_cons]
    exact length_roles_splitSegment l ms

end Lexeme

/-! ## The tokens of a source, turn by turn -/

namespace TokenStream

/-- All tokens that `next` reads from a stream. -/
def visible (s : TokenStream) : List Token :=
  match _h : s.next with
  | (none, _) => []
  | (some t, s) => t :: s.visible
termination_by s.pending.length
decreasing_by exact length_pending_next _h

variable {t : NameTable} {s : TokenStream}

theorem map_role_filter_tokensOver (p : Position) (ls : List Lexeme) :
    ((Lexeme.tokensOver t p ls).filter (·.kind ≠ .space)).map (·.kind.role) = Lexeme.roles ls := by
  induction ls generalizing p with
  | nil => rfl
  | cons l ls ih =>
    rw [Lexeme.tokensOver_cons]
    cases hb : l.isBlank with
    | true =>
      have hk := Lexeme.kindOver_eq_space_iff (t := t).mpr hb
      rw [List.filter_cons_of_neg (by simp [hk]), ih]
      unfold Lexeme.roles
      rw [List.filter_cons_of_neg (by simp [hb])]
    | false =>
      have hk := Lexeme.kindOver_ne_space (t := t) hb
      rw [List.filter_cons_of_pos (by simp [hk]), List.map_cons, ih, Lexeme.roles_cons hb,
        Lexeme.role_kindOver]

theorem filter_tokensOver_of_blank {bs : List Lexeme} (h : ∀ b ∈ bs, b.isBlank = true)
    (p : Position) : (Lexeme.tokensOver t p bs).filter (·.kind ≠ .space) = [] :=
  List.filter_eq_nil_iff.mpr fun u hu => by simp [Lexeme.kind_of_mem_tokensOver h hu]

theorem visible_eq (h : s.Sound) (ht : s.allNames ≤ t) :
    s.visible = (Lexeme.tokensOver t s.position s.pending).filter (·.kind ≠ .space) := by
  fun_induction visible s with
  | case1 s s' hn =>
    cases hd : s.pending.dropWhile Lexeme.isBlank with
    | nil => rw [filter_tokensOver_of_blank (List.dropWhile_eq_nil_iff.mp hd)]
    | cons l ls =>
      rw [next_of_dropWhile h ht hd] at hn
      cases hn
  | case2 s u s' hn ih =>
    cases hd : s.pending.dropWhile Lexeme.isBlank with
    | nil =>
      rw [next_of_blank hd] at hn
      cases hn
    | cons l ls =>
      have hblank := Lexeme.isBlank_of_mem_takeWhile s.pending
      have hp : s.pending = s.pending.takeWhile Lexeme.isBlank ++ l :: ls := by
        rw [← hd, List.takeWhile_append_dropWhile]
      have hl : l.kindOver t ≠ .space := fun hk => by
        have hnot := List.head?_dropWhile_not Lexeme.isBlank s.pending
        rw [hd] at hnot
        simp [Lexeme.kindOver_eq_space_iff.mp hk] at hnot
      rw [next_of_dropWhile h ht hd] at hn
      obtain ⟨rfl, rfl⟩ : _ ∧ _ := Prod.mk.inj hn |>.imp Option.some.inj id
      have hp' : s.pending = (s.pending.takeWhile Lexeme.isBlank ++ [l]) ++ ls := by
        rw [List.append_assoc]
        exact hp
      have hall := allNames_behind hp'
      conv_rhs => rw [hp]
      rw [ih (h.behind _ _) (by rw [hall]; exact ht), Lexeme.tokensOver_append, List.filter_append,
        filter_tokensOver_of_blank hblank, List.nil_append, Lexeme.tokensOver_cons,
        List.filter_cons_of_pos (by simp [hl])]
      simp only [TokenStream.behind, List.flatMap_append, List.flatMap_singleton,
        Position.after_append]

theorem roles_visible (h : s.Sound) :
    s.visible.map (·.kind.role) = Lexeme.roles s.pending := by
  rw [visible_eq h NameTable.le_rfl]
  exact map_role_filter_tokensOver _ _

/-- What is read behind some lexemes is what is left when their tokens are taken away. -/
theorem visible_behind {ls rest : List Lexeme} (h : s.Sound) (hp : s.pending = ls ++ rest) :
    ∃ g : List Token, s.visible = g ++ (s.behind ls rest).visible ∧
      g.length = (Lexeme.roles ls).length := by
  refine ⟨(Lexeme.tokensOver s.allNames s.position ls).filter (·.kind ≠ .space), ?_, ?_⟩
  · rw [visible_eq h NameTable.le_rfl, visible_eq (t := s.allNames) (h.behind ls rest), hp,
      Lexeme.tokensOver_append, List.filter_append]
    · rfl
    · rw [allNames_behind hp]
      exact NameTable.le_rfl
  · rw [← map_role_filter_tokensOver (t := s.allNames) s.position ls, List.length_map]

end TokenStream

namespace Reading

/-- One turn of the parser takes the tokens `g` and reports at most one error. -/
structure Turn (r : Reading) (g : List Token) (r' : Reading) : Prop where
  taken : r.turn? = some r'
  tokens : r.stream.visible = g ++ r'.stream.visible
  reports : ∃ fault? : Option Fault, r'.log = r.log.reportAll fault?.toList

/-- The turns of the parser, with the tokens that each takes, until no token is left. -/
inductive Turns : Reading → List (List Token) → Reading → Prop
  | done {r : Reading} (h : r.turn? = none) : Turns r [] r
  | turn {r r' last : Reading} {g : List Token} {gs : List (List Token)} (h : Turn r g r')
      (hs : Turns r' gs last) : Turns r (g :: gs) last

open TokenRole (segmentLengths firstLength)

/-- The tokens that a stream has left, cut into segments by their roles. -/
def segments (r : Reading) : List (List Token) :=
  (segmentLengths (Lexeme.roles r.stream.pending)).splitLengths r.stream.visible

theorem turn_of_segment? {r : Reading} (h : r.stream.Sound) {g : Segment} {stream : TokenStream}
    (hg : r.stream.segment? = some (g, stream)) :
    ∃ ts, r.segments = ts :: (r.takeSegment g stream).segments ∧
      Turn r ts (r.takeSegment g stream) := by
  have hturn := turn?_eq h
  rw [hg] at hturn
  rw [TokenStream.segment?_eq h NameTable.le_rfl] at hg
  obtain ⟨⟨c, rest⟩, hc, he⟩ := Option.map_eq_some_iff.mp hg
  obtain ⟨rfl, rfl⟩ := Prod.mk.inj he
  have hp := (Lexeme.lexemes_append_of_nextChunk? hc).symm
  have hroles := Lexeme.length_roles_chunk hc
  obtain ⟨ts, hts, hlength⟩ := TokenStream.visible_behind h hp
  refine ⟨ts, ?_, hturn, hts, (r.draft.take _).1, log_takeSegment r _ _⟩
  have hne : Lexeme.roles r.stream.pending ≠ [] := fun hnil => by
    rw [Lexeme.nextChunk?_eq_none_iff.mpr (Lexeme.roles_eq_nil_iff.mp hnil)] at hc
    cases hc
  unfold segments
  rw [TokenRole.segmentLengths_of_ne_nil hne, List.splitLengths_cons, ← hroles, ← hlength, hts,
    List.take_left, List.drop_left]
  congr 3
  rw [hp, Lexeme.roles_append, hlength, List.drop_left]
  rfl

theorem turns_readOn {r : Reading} (h : r.stream.Sound) (hl : r.limit = none) :
    ∃ last, Turns r r.segments last ∧ r.readOn = (last.complete.clean, last.complete.finish) := by
  fun_induction readOn r with
  | case1 r hn =>
    refine ⟨r, ?_, rfl⟩
    have hblank := Lexeme.nextChunk?_eq_none_iff.mp ((TokenStream.segment?_eq_none_iff h).mp hn)
    have hnil : r.segments = [] := by
      unfold segments
      rw [Lexeme.roles_of_blank hblank, segmentLengths]
      rfl
    rw [hnil]
    exact .done (by rw [turn?_eq h, hn]; rfl)
  | case2 r g stream hg r' hr' =>
    rw [limitReached_of_none (show r'.limit = none from hl)] at hr'
    cases hr'
  | case3 r g stream hg r' hr' ih =>
    obtain ⟨hs, -, -⟩ := TokenStream.behind_of_segment? h hg
    obtain ⟨ts, hts, hturn⟩ := turn_of_segment? h hg
    obtain ⟨last, hturns, hread⟩ := ih hs hl
    exact ⟨last, hts ▸ .turn hturn hturns, hread⟩

end Reading

/-- **Without a limit, the turns of the parser cut the tokens of a source into segments**, in any
session. How many tokens each segment has is decided by the roles of the tokens, which are those of
the lexemes of the source. Every token is in one segment, no segment is empty, and each turn reports
at most one error. -/
theorem Session.segments_of_parse (s : Session) (source : String) :
    let r := s.read source none
    let roles := r.stream.visible.map (·.kind.role)
    let segments := (TokenRole.segmentLengths roles).splitLengths r.stream.visible
    roles = Lexeme.roles (Lexeme.ofText source.toList) ∧
      segments.map List.length = TokenRole.segmentLengths roles ∧
      segments.flatten = r.stream.visible ∧ (∀ g ∈ segments, g ≠ []) ∧
      ∃ last, Reading.Turns r segments last ∧
        r.parse = (last.complete.clean, last.complete.finish) := by
  intro r roles segments
  have hsound : r.stream.Sound := TokenStream.sound_ofLexemes _ _
  have hroles : roles = Lexeme.roles r.stream.pending := TokenStream.roles_visible hsound
  have hlength : roles.length = r.stream.visible.length := List.length_map _
  have hsum := TokenRole.sum_segmentLengths roles
  have hlengths : segments.map List.length = TokenRole.segmentLengths roles :=
    List.map_splitLengths_length _ _ (by rw [hsum, hlength])
  obtain ⟨last, hturns, hread⟩ := Reading.turns_readOn hsound rfl
  refine ⟨?_, hlengths, List.flatten_splitLengths _ _ (by rw [hsum, hlength]), fun g hg => ?_,
    last, ?_, hread⟩
  · rw [hroles]
    exact congrArg Lexeme.roles (TokenStream.pending_ofLexemes _ _)
  · have hmem : g.length ∈ TokenRole.segmentLengths roles := hlengths ▸ List.mem_map_of_mem hg
    exact List.ne_nil_of_length_pos (TokenRole.pos_of_mem_segmentLengths hmem)
  · unfold Reading.segments at hturns
    rw [← hroles] at hturns
    exact hturns

end Netlist
