import Netlist.Problem
import Netlist.Token

/-!
# Reading the tokens of a segment

A `TokenReader` consumes the tokens of a source from the left and stops at the first token that does
not fit, with the problem and the place of that token. Where the tokens run out, the input has
ended. A statement is read from the tokens of its segment, or from the tokens of the stream
(`Netlist.Reading.Turn`), by the same reader.
-/

namespace Netlist

/-- A problem, and the place that a message about it points at (`BuildError`). -/
structure Fault where
  problem : Problem
  place : Place
deriving DecidableEq, Repr

namespace TokenKind

/-- The word of a name. -/
def name? : TokenKind → Option Word
  | .name w => some w
  | _ => none

/-- The digits of a number. -/
def number? : TokenKind → Option Word
  | .number w => some w
  | _ => none

/-- The word of a pin. -/
def pin? : TokenKind → Option Word
  | .pin w => some w
  | _ => none

theorem name?_eq_some_iff {k : TokenKind} {w : Word} : k.name? = some w ↔ k = .name w := by
  cases k <;> simp [name?]

theorem number?_eq_some_iff {k : TokenKind} {w : Word} : k.number? = some w ↔ k = .number w := by
  cases k <;> simp [number?]

theorem pin?_eq_some_iff {k : TokenKind} {w : Word} : k.pin? = some w ↔ k = .pin w := by
  cases k <;> simp [pin?]

/-- Whether a token is of one given kind. -/
def only (k : TokenKind) (found : TokenKind) : Option Unit :=
  if found = k then some () else none

end TokenKind

/-- Where tokens are read from. -/
class TokenSource (σ : Type) where
  /-- The next token, white space included; none at the end. -/
  nextRaw : σ → Option Token × σ
  /-- The next token that is not white space; none at the end. -/
  next : σ → Option Token × σ

/-- The tokens that are left of a segment. -/
instance : TokenSource (List Token) where
  nextRaw ts := (ts.head?, ts.tail)
  next ts :=
    let ts := ts.dropWhile (·.kind = .space)
    (ts.head?, ts.tail)

/-- Reads from a source of tokens. A fault leaves the source behind the tokens that were read. -/
abbrev TokenReader (σ : Type) := ExceptT Fault (StateM σ)

namespace TokenReader

variable {σ : Type}

/-- What a reader answers, and the source behind the tokens that it read. -/
def runOn {α : Type} (x : TokenReader σ α) (s : σ) : Except Fault α × σ := StateT.run x.run s

variable [TokenSource σ]

/-- The next token, white space included. -/
def nextRaw : TokenReader σ (Option Token) := modifyGet TokenSource.nextRaw

/-- The next token that is not white space. -/
def next : TokenReader σ (Option Token) := modifyGet TokenSource.next

/-- Stops with a problem at a token that was read. -/
def refuse {α : Type} (problem : Problem) (t : Option Token) : TokenReader σ α :=
  throw ⟨problem, .ofToken? t⟩

/-- What a fitting token gives, and its position; any other token is refused. -/
def fit {α : Type} (f : TokenKind → Option α) (problem : Problem) (t : Option Token) :
    TokenReader σ (α × Position) :=
  match t with
  | none => refuse problem none
  | some t =>
    match f t.kind with
    | none => refuse problem (some t)
    | some a => pure (a, t.position)

/-- Expects the next token to fit. -/
def expect {α : Type} (f : TokenKind → Option α) (problem : Problem) :
    TokenReader σ (α × Position) := do
  fit f problem (← next)

/-- Expects a fitting token without white space in front of it. -/
def expectRaw {α : Type} (f : TokenKind → Option α) (problem : Problem) :
    TokenReader σ (α × Position) := do
  fit f problem (← nextRaw)

end TokenReader

end Netlist
