/-!
# Diagnostics

A diagnostic is a numbered message, and most point into a line of the source: the excerpt shows the
line with a caret under the column (`SourceExcerpt`). A diagnostic is written as plain text (its
`Display`), or as pieces of text between changes of style, for a terminal (`print`).
-/

namespace Netlist

/-- The source line that a diagnostic points into. -/
structure Excerpt where
  line : Nat
  column : Nat
  /-- The line without its terminator. -/
  text : String
deriving DecidableEq, Repr

namespace Excerpt

/-- What stands before the caret: one character for each column before it. Tabs of the line are
repeated, so that the caret stands under its column however wide they are. -/
def padding (e : Excerpt) : List Char :=
  ((e.text.toList.take (e.column - 1)).map fun c => if c = '\t' then '\t' else ' ').rightpad
    (e.column - 1) ' '

/-- The line under the excerpt, with `^` under the column (`caret_line`). -/
def caretLine (e : Excerpt) : String := String.ofList (e.padding ++ ['^'])

end Excerpt

/-- A reported error. -/
structure Diagnostic where
  /-- The place of the error in the report, counted from 1. -/
  number : Nat
  message : String
  /-- The line that the error points into; `none` for an error of the whole source. -/
  excerpt : Option Excerpt
deriving DecidableEq, Repr

namespace Diagnostic

/-- Whether an error is one of the whole source (`is_global`). -/
def isGlobal (d : Diagnostic) : Bool := d.excerpt.isNone

/-- The plain text, without a line feed at its end. -/
def display (d : Diagnostic) : String :=
  match d.excerpt with
  | some e =>
    "Error " ++ toString d.number ++ " on line " ++ toString e.line ++ ": " ++ d.message ++ "\n" ++
      e.text ++ "\n" ++ e.caretLine
  | none => "Error " ++ toString d.number ++ ": " ++ d.message

end Diagnostic

/-- Diagnostics as plain text, a line feed behind each. -/
def displayAll (ds : List Diagnostic) : String :=
  String.join (ds.map fun d => d.display ++ "\n")

end Netlist
