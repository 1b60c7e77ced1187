import Netlist.Diagnostic

/-!
# Styled diagnostics

A diagnostic is printed (`print`) on a stream, as texts and changes of style: a list of pieces.
Written without styles the pieces are the plain text. What a change of style writes is up to the
terminal behind the stream (`Terminal`).
-/

namespace Netlist

/-- The colours in use. -/
inductive Colour
  | red | blue
deriving DecidableEq, Repr

/-- A style of text; all styles are bold. -/
structure Style where
  colour : Option Colour
deriving DecidableEq, Repr

/-- A piece of styled output. -/
inductive Piece
  | text (s : String)
  /-- Text from here on has this style. -/
  | style (s : Style)
  /-- Text from here on has no style. -/
  | reset
deriving DecidableEq, Repr

namespace Piece

/-- The piece without styles. -/
def plain : Piece → String
  | .text s => s
  | .style _ | .reset => ""

/-- Pieces without styles. -/
def plainAll (ps : List Piece) : String := String.join (ps.map plain)

end Piece

namespace Diagnostic

/-- The headline: number and line in red, message in bold. -/
def headline (d : Diagnostic) : List Piece :=
  [.style ⟨some .red⟩, .text ("Error " ++ toString d.number)] ++
    (d.excerpt.map fun e => Piece.text (" on line " ++ toString e.line)).toList ++
    [.text ": ", .reset, .style ⟨none⟩, .text (d.message ++ "\n"), .reset]

/-- The line of the source and the caret under it, in blue. -/
def illustration (e : Excerpt) : List Piece :=
  [.text (e.text ++ "\n"), .style ⟨some .blue⟩, .text (e.caretLine ++ "\n"), .reset]

/-- A diagnostic with styles, a line feed at its end (`print`). -/
def pieces (d : Diagnostic) : List Piece :=
  d.headline ++ (d.excerpt.map illustration).getD []

end Diagnostic

/-- Diagnostics with styles. -/
def piecesAll (ds : List Diagnostic) : List Piece := ds.flatMap Diagnostic.pieces

end Netlist
