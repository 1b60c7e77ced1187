import Netlist.CommandLine
import Netlist.Text.Numeral

/-!
# A console

The platform that the program runs on: a reader of arguments, and an ANSI terminal. The arguments
are one definition file and options, in any order. An option with a value is written `--name value`
or `--name=value`, and no option may be given twice. Behind `--` everything is a file name, and so
is a lone `-`.

What is proved of runs holds on every platform with a lawful terminal; this is one of them
(`lawful_ansi`). It has no `--help` and no `--version`, words its usage errors itself, and writes no
log.

## Results

* `lawful_ansi`: **the console has a terminal that can be relied on.**
-/

namespace Netlist.Console

/-! ## Arguments -/

/-- What is wrong with the arguments. -/
inductive UsageError
  | unknownOption (argument : String)
  | repeatedOption (option : String)
  | missingValue (option : String)
  | invalidValue (option value : String)
  | missingFile
  | emptyFile
  | extraFile (argument : String)
deriving DecidableEq, Repr

/-- The wording of a usage error. -/
def UsageError.message : UsageError → String
  | .unknownOption argument => "unexpected argument '" ++ argument ++ "'"
  | .repeatedOption option => "the option " ++ option ++ " is given more than once"
  | .missingValue option => "a value is required for " ++ option
  | .invalidValue option value => "invalid value '" ++ value ++ "' for " ++ option
  | .missingFile => "a definition file is required"
  | .emptyFile => "the name of the definition file is empty"
  | .extraFile argument => "unexpected second file '" ++ argument ++ "'"

/-- The colour mode of a name. -/
def colourMode? : String → Option ColourMode
  | "auto" => some .auto
  | "always" => some .always
  | "never" => some .never
  | _ => none

/-- The arguments read so far, each option at most once. -/
structure Collected where
  file : Option String
  maxErrors : Option Nat
  colour : Option ColourMode
  verbose : Option Unit

namespace Collected

/-- Fills an option that must be empty. -/
def fill {α : Type} (option : String) (old : Option α) (new : α) : Except UsageError (Option α) :=
  match old with
  | none => .ok (some new)
  | some _ => .error (.repeatedOption option)

/-- A limit on the number of errors: a word, at least 1. -/
def limit? (value : String) : Option Nat :=
  (Numeral.readWord? value.toList).filter fun n => 1 ≤ n

/-- Takes a file name. -/
def takeFile (a : Collected) (name : String) : Except UsageError Collected :=
  match a.file with
  | some _ => .error (.extraFile name)
  | none => if name = "" then .error .emptyFile else .ok { a with file := some name }

/-- Takes the value of `--max-errors`. -/
def takeMaxErrors (a : Collected) (value : String) : Except UsageError Collected :=
  match limit? value with
  | none => .error (.invalidValue "--max-errors" value)
  | some n => do return { a with maxErrors := ← fill "--max-errors" a.maxErrors n }

/-- Takes the value of `--color`. -/
def takeColour (a : Collected) (value : String) : Except UsageError Collected :=
  match colourMode? value with
  | none => .error (.invalidValue "--color" value)
  | some mode => do return { a with colour := ← fill "--color" a.colour mode }

/-- Takes `--verbose` or `-v`. -/
def takeVerbose (a : Collected) : Except UsageError Collected := do
  return { a with verbose := ← fill "--verbose" a.verbose () }

/-- Takes an argument that carries no value of its own behind a blank. -/
def takeOne (a : Collected) (argument : String) : Except UsageError Collected :=
  if argument = "--verbose" ∨ argument = "-v" then a.takeVerbose
  else if "--max-errors=".toList.isPrefixOf argument.toList then
    a.takeMaxErrors (String.ofList (argument.toList.drop 13))
  else if "--color=".toList.isPrefixOf argument.toList then
    a.takeColour (String.ofList (argument.toList.drop 8))
  else if argument ≠ "-" ∧ argument.toList.head? = some '-' then .error (.unknownOption argument)
  else a.takeFile argument

/-- Takes the arguments from left to right. -/
def takeAll (a : Collected) : List String → Except UsageError Collected
  | [] => .ok a
  | "--" :: names => names.foldlM takeFile a
  | ["--max-errors"] => .error (.missingValue "--max-errors")
  | ["--color"] => .error (.missingValue "--color")
  | "--max-errors" :: value :: rest => do (← a.takeMaxErrors value).takeAll rest
  | "--color" :: value :: rest => do (← a.takeColour value).takeAll rest
  | argument :: rest => do (← a.takeOne argument).takeAll rest

/-- The arguments that were collected. -/
def finish (a : Collected) : Except UsageError Arguments :=
  match a.file with
  | none => .error .missingFile
  | some file =>
    .ok { file, maxErrors := a.maxErrors, colour := a.colour.getD .auto,
          verbose := a.verbose.isSome }

end Collected

/-- Reads the arguments. -/
def arguments (words : List String) : Except RunResult Arguments :=
  match Collected.takeAll ⟨none, none, none, none⟩ words >>= Collected.finish with
  | .ok a => .ok a
  | .error e => .error ⟨2, "", "usage: " ++ e.message ++ "\n"⟩

/-! ## Terminal -/

/-- What the environment says about the terminal. -/
structure Environment where
  /-- The kind of the terminal, `TERM`. -/
  terminal : Option String
  /-- Whether `NO_COLOR` asks for no colours. -/
  noColour : Bool
deriving DecidableEq, Repr

/-- An escape sequence that selects one attribute. -/
def escape (code : String) : String := "\x1b[" ++ code ++ "m"

/-- The escape sequence of a colour. -/
def colourEscape : Colour → String
  | .red => escape "31"
  | .blue => escape "34"

/-- An ANSI terminal. A style replaces the one before it, and `auto` asks for a terminal that is not
a dumb one. -/
def ansi (env : Environment) : Terminal where
  coloured
    | .always => true
    | .never => false
    | .auto => !env.noColour && env.terminal.isSome && env.terminal != some "dumb"
  select s := escape "0" ++ escape "1" ++ (s.colour.map colourEscape).getD ""
  reset := escape "0"

theorem escapes_escape {code : String} (h : ∀ c ∈ code.toList, c.isDigit = true ∨ c = ';')
    {cs : List Char} (hcs : Escapes cs) : Escapes ((escape code).toList ++ cs) := by
  have htext : (escape code).toList ++ cs = '\x1b' :: '[' :: (code.toList ++ 'm' :: cs) := by
    simp [escape]
  rw [htext]
  exact .cons h hcs

theorem escapes_colourEscape (colour : Colour) : Escapes (colourEscape colour).toList := by
  rw [← List.append_nil (colourEscape colour).toList]
  cases colour with
  | red => exact escapes_escape (by simp) .nil
  | blue => exact escapes_escape (by simp) .nil

/-- **The console has a terminal that can be relied on.** -/
theorem lawful_ansi (env : Environment) : (ansi env).Lawful where
  always := rfl
  never := rfl
  select s := by
    have hcolour : Escapes ((s.colour.map colourEscape).getD "").toList := by
      cases s.colour with
      | none => exact .nil
      | some colour => exact escapes_colourEscape colour
    show Escapes (escape "0" ++ escape "1" ++ _).toList
    rw [String.append_assoc, String.toList_append, String.toList_append]
    exact escapes_escape (by simp) (escapes_escape (by simp) hcolour)
  reset := by
    rw [← List.append_nil (ansi env).reset.toList]
    exact escapes_escape (by simp) .nil

/-! ## Platform -/

/-- The platform of a console with a file system. -/
def platform (env : Environment) (read : String → FileContent) : Platform where
  arguments := arguments
  read := read
  terminal := ansi env
  log _ _ _ := ""

end Netlist.Console
