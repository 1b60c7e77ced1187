import Netlist.CommandLine.Terminal
import Netlist.Proofs.Rendering

/-!
# Diagnostics on a terminal

A terminal is free in the sequences that it selects its styles with. Whatever they are, a stream in
colours writes the texts of a diagnostic between them, each where `print` has it, and a stream
without colours writes the plain text alone. The sequences of a lawful terminal are escape
sequences, so in every mode what is written is the plain text with escape sequences put in.

## Results

* `Terminal.writeAll_false`: without colours, the pieces are written as their plain text.
* `Terminal.writeAll_true_piecesAll`: in colours, the diagnostics are painted one behind the other.
* `Terminal.Lawful.dressed_writeAll`: **what is written is the plain text with escape sequences put
  in.**
-/

namespace Netlist

/-! ## Texts with escape sequences -/

/-- `dressed` is the text `plain` with escape sequences put in. -/
inductive Dressed : List Char → List Char → Prop
  | nil : Dressed [] []
  | char {plain dressed : List Char} (c : Char) (h : Dressed plain dressed) :
      Dressed (c :: plain) (c :: dressed)
  | escapes {cs plain dressed : List Char} (hcs : Escapes cs) (h : Dressed plain dressed) :
      Dressed plain (cs ++ dressed)

namespace Dressed

variable {plain plain' dressed dressed' : List Char}

theorem refl (cs : List Char) : Dressed cs cs := by
  induction cs with
  | nil => exact .nil
  | cons c cs ih => exact .char c ih

theorem append (h : Dressed plain dressed) (h' : Dressed plain' dressed') :
    Dressed (plain ++ plain') (dressed ++ dressed') := by
  induction h with
  | nil => exact h'
  | char c _ ih => exact .char c ih
  | escapes hcs _ ih =>
    rw [List.append_assoc]
    exact .escapes hcs ih

theorem of_escapes {cs : List Char} (h : Escapes cs) : Dressed [] cs := by
  have hdressed := Dressed.escapes h .nil
  rwa [List.append_nil] at hdressed

end Dressed

/-! ## Pieces on a stream -/

namespace Terminal

variable {t : Terminal}

theorem writeAll_append (t : Terminal) (coloured : Bool) (ps qs : List Piece) :
    t.writeAll coloured (ps ++ qs) = t.writeAll coloured ps ++ t.writeAll coloured qs := by
  unfold writeAll
  rw [List.map_append, String.join_append]

/-- **Without colours, the plain text is written.** -/
theorem writeAll_false (t : Terminal) (ps : List Piece) :
    t.writeAll false ps = Piece.plainAll ps := by
  have hpiece : t.write false = Piece.plain := by
    funext p
    cases p <;> rfl
  rw [writeAll, hpiece, Piece.plainAll]

theorem Lawful.dressed_write (h : t.Lawful) (coloured : Bool) (p : Piece) :
    Dressed p.plain.toList (t.write coloured p).toList := by
  cases p with
  | text s => exact .refl _
  | style s =>
    cases coloured with
    | true => exact .of_escapes (h.select s)
    | false => exact .nil
  | reset =>
    cases coloured with
    | true => exact .of_escapes h.reset
    | false => exact .nil

/-- **What is written is the plain text with escape sequences put in**, in colours and without. -/
theorem Lawful.dressed_writeAll (h : t.Lawful) (coloured : Bool) (ps : List Piece) :
    Dressed (Piece.plainAll ps).toList (t.writeAll coloured ps).toList := by
  induction ps with
  | nil => exact .nil
  | cons p ps ih =>
    have happ := (h.dressed_write coloured p).append ih
    unfold Piece.plainAll writeAll at *
    rw [List.map_cons, String.join_cons, List.map_cons, String.join_cons, String.toList_append,
      String.toList_append]
    exact happ

/-! ## Diagnostics on a stream -/

/-- A diagnostic in colours: number and line in red, the message in bold, the line of the source as
it stands, and the caret in blue. -/
def painted (t : Terminal) (d : Diagnostic) : String :=
  match d.excerpt with
  | none =>
    t.select ⟨some .red⟩ ++ "Error " ++ toString d.number ++ ": " ++ t.reset ++
      t.select ⟨none⟩ ++ d.message ++ "\n" ++ t.reset
  | some e =>
    t.select ⟨some .red⟩ ++ "Error " ++ toString d.number ++ " on line " ++ toString e.line ++
      ": " ++ t.reset ++ t.select ⟨none⟩ ++ d.message ++ "\n" ++ t.reset ++
      e.text ++ "\n" ++ t.select ⟨some .blue⟩ ++ e.caretLine ++ "\n" ++ t.reset

theorem writeAll_true_pieces (t : Terminal) (d : Diagnostic) :
    t.writeAll true d.pieces = t.painted d := by
  unfold Diagnostic.pieces Diagnostic.headline painted
  cases d.excerpt with
  | none => simp [writeAll, write, String.append_assoc]
  | some e => simp [writeAll, write, Diagnostic.illustration, String.append_assoc]

/-- **In colours, the diagnostics are painted one behind the other.** -/
theorem writeAll_true_piecesAll (t : Terminal) (ds : List Diagnostic) :
    t.writeAll true (piecesAll ds) = String.join (ds.map t.painted) := by
  induction ds with
  | nil => rfl
  | cons d ds ih =>
    unfold piecesAll at *
    rw [List.flatMap_cons, writeAll_append, writeAll_true_pieces, ih, List.map_cons,
      String.join_cons]

end Terminal

end Netlist
