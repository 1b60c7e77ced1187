import Netlist.TokenStream

/-!
# Segments

A token stream is cut into segments, and every segment is judged on its own. A heading with its
colon is a segment; any other segment goes through the first `;`, or to the end of the input when
there is none. So an error in one segment never moves the start of another. The parser finds the end
of a segment by reading the statement or by skipping (`skip_line`); both lead to the same place
(`Reading.turn?_eq`).

## Results

* `length_pending_segment?`: reading a segment uses up lexemes.
-/

namespace Netlist

/-- The tokens of a heading with its colon, or of a statement through its `;`. -/
structure Segment where
  /-- The first token, which is not white space. -/
  head : Token
  /-- The tokens behind it, white space included. -/
  tail : List Token
deriving DecidableEq, Repr

namespace Lexeme

/-- Splits behind the first `;`. -/
def splitStop : List Lexeme → List Lexeme × List Lexeme
  | [] => ([], [])
  | l :: ls =>
    if l = .mark ';' then ([l], ls)
    else
      let (now, later) := splitStop ls
      (l :: now, later)

theorem splitStop_append (ls : List Lexeme) : (splitStop ls).1 ++ (splitStop ls).2 = ls := by
  induction ls with
  | nil => rfl
  | cons l ls ih =>
    unfold splitStop
    split
    · rfl
    · exact congrArg (l :: ·) ih

end Lexeme

namespace TokenStream

/-- The tokens through the first `;`, or to the end. -/
def throughStop (s : TokenStream) : List Token × TokenStream :=
  let (now, later) := Lexeme.splitStop s.pending
  let (ts, s) := s.readAll now
  (ts, { s with pending := later })

/-- The tokens of a segment behind its first token. -/
def segmentTail (s : TokenStream) : TokenKind → List Token × TokenStream
  | .semicolon => ([], s)
  | .heading _ _ =>
    match s.next with
    | (some ⟨.colon, p⟩, s') => ([⟨.colon, p⟩], s')
    | _ => s.throughStop
  | _ => s.throughStop

/-- The next segment; none if only white space is left. -/
def segment? (s : TokenStream) : Option (Segment × TokenStream) :=
  match s.next with
  | (none, _) => none
  | (some t, s) =>
    let (tail, s) := s.segmentTail t.kind
    some (⟨t, tail⟩, s)

/-! ## Reading uses up lexemes -/

theorem length_pending_throughStop (s : TokenStream) :
    s.throughStop.2.pending.length ≤ s.pending.length := by
  show (Lexeme.splitStop s.pending).2.length ≤ s.pending.length
  have h := congrArg List.length (Lexeme.splitStop_append s.pending)
  rw [List.length_append] at h
  omega

theorem length_pending_segmentTail (s : TokenStream) (k : TokenKind) :
    (s.segmentTail k).2.pending.length ≤ s.pending.length := by
  unfold segmentTail
  split
  · exact Nat.le_refl _
  · split
    · rename_i h
      exact Nat.le_of_lt (length_pending_next h)
    · exact length_pending_throughStop s
  · exact length_pending_throughStop s

theorem length_pending_segment? {s s' : TokenStream} {g : Segment}
    (h : s.segment? = some (g, s')) : s'.pending.length < s.pending.length := by
  unfold segment? at h
  split at h
  · exact absurd h (by simp)
  · rename_i t s₁ hn
    have e : (s₁.segmentTail t.kind).2 = s' := congrArg Prod.snd (Option.some.inj h)
    have h1 := length_pending_next hn
    have h2 := length_pending_segmentTail s₁ t.kind
    rw [e] at h2
    omega

end TokenStream

end Netlist
