/-!
# Decimal numerals

The value of a string of decimal digits, and the value it has as a 64-bit word: a numeral beyond
the largest word reads as the largest word, for parsing its digits can fail on overflow alone.
-/

namespace Netlist.Numeral

/-- The value of a decimal digit. -/
def digitValue (c : Char) : Nat := c.toNat - '0'.toNat

/-- The value of a string of decimal digits, leading zeros allowed. -/
def value (digits : List Char) : Nat :=
  digits.foldl (fun n c => 10 * n + digitValue c) 0

/-- The largest 64-bit word. -/
def maxWord : Nat := UInt64.size - 1

/-- The value of a string of decimal digits, cut off at the largest word. -/
def wordValue (digits : List Char) : Nat := min (value digits) maxWord

/-- Reads a word: an optional `+`, then one or more decimal digits with a value up to `maxWord`. -/
def readWord? (cs : List Char) : Option Nat :=
  let digits := match cs with
    | '+' :: ds => ds
    | ds => ds
  if digits ≠ [] ∧ digits.all Char.isDigit ∧ value digits ≤ maxWord then some (value digits)
  else none

end Netlist.Numeral
