import Netlist.Reading

/-!
# Reading token by token

The loop of `parse` knows no segments. It keeps the token that it read last, reads a statement from
the tokens until the statement is complete or a token does not fit, and then skips with `skip_line`
until it has passed a `;`. A `Cursor` is a stream with the token that was read last, and
`Reading.turn?` is one turn of this loop: a heading (`parse_heading`), a statement
(`parse_statement`), or a token that starts neither. A turn takes in one segment
(`Reading.turn?_eq`), so `Reading.readOn` goes segment by segment.

`skip_line` also answers whether it stopped at a `;` or at the end of the input. Nothing reads that
answer, so it is left out.
-/

namespace Netlist

/-- A stream with the token that was read last. -/
structure Cursor where
  current : Option Token
  stream : TokenStream

namespace Cursor

instance : TokenSource Cursor where
  nextRaw c := (c.stream.nextRaw.1, Cursor.mk c.stream.nextRaw.1 c.stream.nextRaw.2)
  next c := (c.stream.next.1, Cursor.mk c.stream.next.1 c.stream.next.2)

/-- Whether the current token is a `;`, or the input has ended. -/
def atStop (c : Cursor) : Prop := ∀ t ∈ c.current, t.kind = .semicolon

instance (c : Cursor) : Decidable c.atStop := by unfold atStop; infer_instance

/-- Reads on until the current token is a `;`, or the input has ended. -/
def skipLine (c : Cursor) : Cursor :=
  if c.atStop then c
  else
    match _h : c.stream.next with
    | (none, s) => ⟨none, s⟩
    | (some t, s) => skipLine ⟨some t, s⟩
termination_by c.stream.pending.length
decreasing_by exact TokenStream.length_pending_next _h

end Cursor

namespace Draft

/-- Reads the colon of a heading from a cursor, and enters its section. -/
def turnHeading (d : Draft) (s : Section) (position : Position) (c : Cursor) :
    (Option Fault × Draft) × Cursor :=
  match (TokenReader.expect (TokenKind.only .colon) (.colonExpected s)).runOn c with
  | (.ok _, c) => (d.enter s position, c)
  | (.error fault, c) => ((some fault, d), c.skipLine)

/-- Reads a statement from a cursor behind its keyword, and carries it out. -/
def turnStatement (d : Draft) (k : Keyword) (position : Position) (c : Cursor) :
    (Option Fault × Draft) × Cursor :=
  if d.sections.active = some k.homeSection then
    match (Statement.read d.circuit k).runOn c with
    | (.ok st, c) =>
      match d.apply st with
      | .ok d => ((none, d), c)
      | .error fault => ((some fault, d), c.skipLine)
    | (.error fault, c) => ((some fault, d), c.skipLine)
  else ((some ⟨.outsideSection k, .token position⟩, d), c.skipLine)

/-- What a draft does when a cursor has read the token `t`. -/
def turn (d : Draft) (t : Token) (c : Cursor) : (Option Fault × Draft) × Cursor :=
  match t.kind with
  | .heading s _ => d.turnHeading s t.position c
  | .keyword k _ => d.turnStatement k t.position c
  | _ => ((some ⟨.strayToken, .token t.position⟩, d), c.skipLine)

end Draft

/-- One turn of the parser; none when only white space is left. -/
def Reading.turn? (r : Reading) : Option Reading :=
  match r.stream.next with
  | (none, _) => none
  | (some t, s) =>
    let (taken, c) := r.draft.turn t ⟨some t, s⟩
    some (r.goOn taken c.stream)

end Netlist
