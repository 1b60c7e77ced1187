import Netlist.Report

/-!
# Definition files

A definition is read from a regular file that holds UTF-8 text. A byte order mark is text. The file
system is a function from paths to contents: it is asked once for a path (`is_file`, and then
`read_to_string`), and why a file cannot be read is a text that it answers.
-/

namespace Netlist

/-- What a path gives to read. -/
inductive FileContent
  /-- No regular file is at the path. -/
  | absent
  /-- The file is there, but cannot be read. -/
  | unreadable (reason : String)
  | bytes (content : ByteArray)

/-- Why a definition file is not checked, or its diagnostics are not written (`LogsimError`). -/
inductive FileError
  | notFound (path : String)
  /-- The file could not be read as text. -/
  | unreadable (path reason : String)
  | unwritable (reason : String)
deriving DecidableEq, Repr

/-- The wording of a file error. -/
def FileError.message : FileError → String
  | .notFound path => "Definition file '" ++ path ++ "' not found"
  | .unreadable path reason => "Failed to read definition file '" ++ path ++ "': " ++ reason
  | .unwritable reason => "Failed to write diagnostics: " ++ reason

/-- Why bytes are not text. -/
def invalidEncoding : String := "stream did not contain valid UTF-8"

/-- The text that a path gives (`read_source`). -/
def sourceOf (path : String) : FileContent → Except FileError String
  | .absent => .error (.notFound path)
  | .unreadable reason => .error (.unreadable path reason)
  | .bytes content =>
    match String.fromUTF8? content with
    | none => .error (.unreadable path invalidEncoding)
    | some source => .ok source

/-- Checks the definition in the file at a path (`check_file`). -/
def checkFile (path : String) (content : FileContent) (limit : Option Nat) :
    Except FileError Report := do
  let source ← sourceOf path content
  return check source limit

end Netlist
