import Netlist.CommandLine.Arguments
import Netlist.Diagnostic.Style

/-!
# Terminals

A diagnostic is printed on a stream as texts and changes of style. The stream writes every text as
it stands. In colours it writes an escape sequence where the style changes, and without colours
nothing. Which sequences these are, and whether the mode `auto` is in colours, is decided by the
library and the terminal behind the stream, so a `Terminal` is a parameter of a run.
`Terminal.Lawful` is what is relied on: the modes `always` and `never` do what they say, and a
change of style writes nothing but escape sequences.
-/

namespace Netlist

/-- Escape sequences that change the style, one behind the other: `ESC`, `[`, numbers with `;`
between them, and `m`. -/
inductive Escapes : List Char → Prop
  | nil : Escapes []
  | cons {code cs : List Char} (hcode : ∀ c ∈ code, c.isDigit = true ∨ c = ';')
      (h : Escapes cs) : Escapes ('\x1b' :: '[' :: (code ++ 'm' :: cs))

/-- The streams of a terminal. -/
structure Terminal where
  /-- Whether a mode writes colours. -/
  coloured : ColourMode → Bool
  /-- What selects a style, for a stream in colours (`set_color`). -/
  select : Style → String
  /-- What ends every style, for a stream in colours (`reset`). -/
  reset : String

namespace Terminal

/-- What is relied on of a terminal. -/
structure Lawful (t : Terminal) : Prop where
  always : t.coloured .always = true
  never : t.coloured .never = false
  select (s : Style) : Escapes (t.select s).toList
  reset : Escapes t.reset.toList

/-- Writes a piece on a stream, in colours or without. -/
def write (t : Terminal) (coloured : Bool) : Piece → String
  | .text s => s
  | .style s => if coloured then t.select s else ""
  | .reset => if coloured then t.reset else ""

/-- Writes pieces one behind the other. -/
def writeAll (t : Terminal) (coloured : Bool) (ps : List Piece) : String :=
  String.join (ps.map (t.write coloured))

end Terminal

end Netlist
