/-!
# Lines of a text

The lines that excerpts show (`lines`). A line ends before `'\n'` or before the pair `'\r'`, `'\n'`;
a `'\r'` elsewhere is text. The empty piece after a final terminator is no line.
-/

namespace Netlist.Text

/-- Puts a character in front of the first line. -/
def consLine (c : Char) : List (List Char) → List (List Char)
  | [] => [[c]]
  | line :: rest => (c :: line) :: rest

/-- The lines of a text, without their terminators. -/
def lines : List Char → List (List Char)
  | [] => []
  | '\n' :: cs => [] :: lines cs
  | '\r' :: '\n' :: cs => [] :: lines cs
  | c :: cs => consLine c (lines cs)

end Netlist.Text
