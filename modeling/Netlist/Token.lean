import Netlist.Lexeme
import Netlist.Text.Position
import Netlist.Vocabulary

/-!
# Tokens

A token is a lexeme that was read: its words and numerals are interned, its words are classified,
and it has the position of its first character. A `Place` is where a message points: at a position,
or at the end of the input.

The kind of a token carries what its word stands for. `parse_heading` and `parse_statement` look the
word up in the vocabulary a second time, and have a branch for a heading without a section and for a
keyword that is none (`Unknown keyword`). The vocabulary does not change in between, so both
look-ups find what `classify` found (`Netlist.Proofs.Unreachable`), and these branches have no
counterpart here. The end of the input is no token but the lack of one.
-/

namespace Netlist

/-- An interned word or numeral. -/
structure Word where
  id : NameId
  text : String
deriving DecidableEq, Repr

/-- The kinds of tokens. -/
inductive TokenKind
  | heading (s : Section) (word : Word)
  | keyword (k : Keyword) (word : Word)
  | pin (word : Word)
  | name (word : Word)
  | number (digits : Word)
  | comma | arrow | semicolon | colon | dot | equal
  /-- White space and comments. -/
  | space
  /-- A character that starts no token. -/
  | malformed
deriving DecidableEq, Repr

namespace TokenKind

/-- The interned word or numeral of a token. -/
def word? : TokenKind → Option Word
  | .heading _ w | .keyword _ w | .pin w | .name w | .number w => some w
  | _ => none

/-- The kind of a word of a class. -/
def ofWord (w : Word) : WordClass → TokenKind
  | .heading s => .heading s w
  | .keyword k => .keyword k w
  | .pin => .pin w
  | .name => .name w

/-- The kind of a character that starts no longer token. -/
def ofMark : Char → TokenKind
  | ',' => .comma
  | ';' => .semicolon
  | ':' => .colon
  | '.' => .dot
  | '=' => .equal
  | _ => .malformed

end TokenKind

/-- A lexeme that was read. -/
structure Token where
  kind : TokenKind
  position : Position
deriving DecidableEq, Repr

/-- Where a message points. -/
inductive Place
  | token (position : Position)
  | endOfInput
deriving DecidableEq, Repr

/-- The place of a token that was read, or of the end of the input if there was none. -/
def Place.ofToken? : Option Token → Place
  | some t => .token t.position
  | none => .endOfInput

end Netlist
