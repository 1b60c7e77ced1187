import Netlist.Lexeme
import Netlist.Proofs.Blueprint
import Netlist.Text.Numeral

/-!
# The grammar of definitions

A definition lists devices, connections and monitors. It is spelled by symbols: lexemes, some of
which have to follow the one in front of them directly. All other symbols may have white space and
comments in front of them. A source is a definition when its lexemes spell the symbols of one, and
the definition is well typed when its names are used as they are declared.

* `file = "DEVICE" ":" {device} "CONNECTION" ":" {connection} "MONITOR" ":" {monitor}`
* `device = kind name ";"`, or `kind name "=" number ";"` for the kinds with a qualifier
* `connection = "CON" output "->" name "." pin ";"`
* `monitor = "MON" output ";"`
* `output = name [ "." pin ]`

## Main definitions

* `Definition.SpelledBy`: a source spells a definition.
* `Definition.WellTyped`: a definition uses its names as it declares them.
-/

namespace Netlist

/-! ## Symbols -/

/-- A lexeme of a definition. -/
structure Symbol where
  lexeme : Lexeme
  /-- Whether it has to follow the lexeme in front of it directly. -/
  glued : Bool
deriving DecidableEq, Repr

namespace Symbol

/-- A word. -/
def word (w : String) : Symbol := ⟨.word w.toList, false⟩

/-- A numeral. -/
def numeral (digits : String) : Symbol := ⟨.numeral digits.toList, false⟩

/-- A single character. -/
def mark (c : Char) : Symbol := ⟨.mark c, false⟩

/-- The arrow of a connection. -/
def arrow : Symbol := ⟨.arrow, false⟩

/-- A dot and a pin behind a name, without white space. -/
def qualified (pin : String) : List Symbol := [⟨.mark '.', true⟩, ⟨.word pin.toList, true⟩]

end Symbol

/-- The symbols are spelled at the front of the lexemes, and the rest is what follows. -/
inductive Spells : List Symbol → List Lexeme → List Lexeme → Prop
  | nil {rest : List Lexeme} : Spells [] rest rest
  | spaced {l : Lexeme} {ps : List Symbol} {bs ls rest : List Lexeme}
      (blank : ∀ b ∈ bs, b.isBlank = true) (h : Spells ps ls rest) :
      Spells (⟨l, false⟩ :: ps) (bs ++ l :: ls) rest
  | glued {l : Lexeme} {ps : List Symbol} {ls rest : List Lexeme} (h : Spells ps ls rest) :
      Spells (⟨l, true⟩ :: ps) (l :: ls) rest

/-! ## Definitions -/

/-- A declaration as it is written. -/
structure DeviceLine where
  kind : DeviceKind
  name : String
  /-- The digits behind `=`. -/
  qualifier : Option String
deriving DecidableEq, Repr

/-- A definition as it is written. -/
structure Definition where
  devices : List DeviceLine
  connections : List Wire
  monitors : List OutputName
deriving DecidableEq, Repr

/-- The symbols of an output. -/
def OutputName.symbols (o : OutputName) : List Symbol :=
  .word o.device :: (o.pin.map Symbol.qualified).getD []

/-- What a definition is put together from. -/
inductive Item
  | title (s : Section)
  | device (x : DeviceLine)
  | connection (w : Wire)
  | monitor (o : OutputName)
deriving DecidableEq, Repr

namespace Item

/-- The word that an item begins with. -/
def head : Item → String
  | .title s => s.heading
  | .device x => x.kind.keyword
  | .connection _ => "CON"
  | .monitor _ => "MON"

/-- The symbols behind the first word. -/
def tail : Item → List Symbol
  | .title _ => [.mark ':']
  | .device x =>
    .word x.name ::
      ((x.qualifier.map fun digits => [.mark '=', .numeral digits]).getD [] ++ [.mark ';'])
  | .connection w =>
    w.source.symbols ++ .arrow :: .word w.device :: (Symbol.qualified w.pin ++ [.mark ';'])
  | .monitor o => o.symbols ++ [.mark ';']

/-- The keyword that an item begins with, if it is a statement. -/
def keyword? : Item → Option Keyword
  | .title _ => none
  | .device x => some (.device x.kind)
  | .connection _ => some .connect
  | .monitor _ => some .monitor

/-- The symbols of an item. -/
def symbols (i : Item) : List Symbol := .word i.head :: i.tail

end Item

namespace Definition

/-- The items of a definition, in their order. -/
def items (d : Definition) : List Item :=
  .title .device :: d.devices.map .device ++ .title .connection :: d.connections.map .connection ++
    .title .monitor :: d.monitors.map .monitor

/-- **A source spells a definition** when its lexemes are the symbols of the definition, and nothing
but white space follows. -/
def SpelledBy (d : Definition) (source : String) : Prop :=
  ∃ rest, Spells (d.items.flatMap Item.symbols) (Lexeme.ofText source.toList) rest ∧
    ∀ l ∈ rest, l.isBlank = true

end Definition

/-! ## Types -/

namespace DeviceLine

/-- Whether the qualifier of a declaration is there for the kinds that take one, and in range. -/
def Fits (x : DeviceLine) : Prop :=
  match x.kind, x.qualifier with
  | .and, some ds | .or, some ds | .nand, some ds | .nor, some ds =>
    1 ≤ Numeral.value ds.toList ∧ Numeral.value ds.toList ≤ 16
  | .switch, some ds => Numeral.value ds.toList = 0 ∨ Numeral.value ds.toList = 1
  | .clock, some ds | .rc, some ds =>
    1 ≤ Numeral.value ds.toList ∧ Numeral.value ds.toList < 2 ^ 32
  | .siggen, some ds => ds.toList ≠ [] ∧ ∀ c ∈ ds.toList, c = '0' ∨ c = '1'
  | .xor, none | .dtype, none => True
  | _, _ => False

/-- The words of the input pins of a declared device. A gate has as many as its qualifier says. -/
def inputs (x : DeviceLine) : List String :=
  match x.kind, x.qualifier with
  | .and, some ds | .or, some ds | .nand, some ds | .nor, some ds =>
    (List.range (Numeral.value ds.toList)).map fun i => "I" ++ toString (i + 1)
  | .xor, _ => ["I1", "I2"]
  | .dtype, _ => ["DATA", "CLK", "SET", "CLEAR"]
  | _, _ => []

/-- Whether a name is that of an output of a declared device: `Q` or `QBAR` for a D-type, and the
device alone for any other. -/
def Offers (x : DeviceLine) (o : OutputName) : Prop :=
  x.name = o.device ∧
    if x.kind = .dtype then o.pin = some "Q" ∨ o.pin = some "QBAR" else o.pin = none

end DeviceLine

/-- **A definition is well typed** when its names are used as they are declared. -/
structure Definition.WellTyped (d : Definition) : Prop where
  distinct : (d.devices.map DeviceLine.name).Nodup
  unreserved : ∀ x ∈ d.devices, x.name ∉ Vocabulary.words
  fits : ∀ x ∈ d.devices, x.Fits
  /-- A connection comes from an output. -/
  sources : ∀ w ∈ d.connections, ∃ x ∈ d.devices, x.Offers w.source
  /-- A connection goes to an input pin. -/
  sinks : ∀ w ∈ d.connections, ∃ x ∈ d.devices, x.name = w.device ∧ w.pin ∈ x.inputs
  /-- One connection goes to each input pin. -/
  driven : ∀ x ∈ d.devices, ∀ pin ∈ x.inputs,
    d.connections.countP (fun w => w.device = x.name ∧ w.pin = pin) = 1
  /-- Only outputs are monitored, and each once. -/
  outputs : ∀ o ∈ d.monitors, ∃ x ∈ d.devices, x.Offers o
  monitors : d.monitors.Nodup
  /-- Every device is connected as an output, or monitored. -/
  used : ∀ x ∈ d.devices,
    (∃ w ∈ d.connections, w.source.device = x.name) ∨ ∃ o ∈ d.monitors, o.device = x.name

/-! ## Spelling -/

section Spells

variable {ps qs : List Symbol} {ls ms rest : List Lexeme} {l : Lexeme}

theorem Spells.append (h : Spells ps ls ms) (h' : Spells qs ms rest) :
    Spells (ps ++ qs) ls rest := by
  induction h with
  | nil => exact h'
  | spaced hb _ ih => exact .spaced hb (ih h')
  | glued _ ih => exact .glued (ih h')

theorem spells_append_iff :
    Spells (ps ++ qs) ls rest ↔ ∃ ms, Spells ps ls ms ∧ Spells qs ms rest := by
  constructor
  · intro h
    induction ps generalizing ls with
    | nil => exact ⟨ls, .nil, h⟩
    | cons p ps ih =>
      cases h with
      | spaced hb h =>
        obtain ⟨ms, h1, h2⟩ := ih h
        exact ⟨ms, .spaced hb h1, h2⟩
      | glued h =>
        obtain ⟨ms, h1, h2⟩ := ih h
        exact ⟨ms, .glued h1, h2⟩
  · rintro ⟨ms, h1, h2⟩
    exact h1.append h2

theorem spells_nil_iff : Spells [] ls rest ↔ rest = ls := by
  constructor
  · intro h
    cases h
    rfl
  · rintro rfl
    exact .nil

/-- A declaration with a blank in front of each symbol but the last. -/
theorem spells_declaration (kind : DeviceKind) (name digits : String) (rest : List Lexeme) :
    Spells (Item.device ⟨kind, name, some digits⟩).symbols
      ([.blank [' '], .word kind.keyword.toList, .blank [' '], .word name.toList, .blank [' '],
        .mark '=', .blank [' '], .numeral digits.toList, .mark ';'] ++ rest) rest := by
  have hspaced {l : Lexeme} {ps : List Symbol} {ls : List Lexeme} (h : Spells ps ls rest) :
      Spells (⟨l, false⟩ :: ps) (.blank [' '] :: l :: ls) rest :=
    @Spells.spaced l ps [.blank [' ']] ls rest (by decide) h
  exact hspaced (hspaced (hspaced (hspaced (@Spells.spaced _ _ [] _ _ nofun .nil))))

/-- What is spelled is in front of the rest, whatever the rest is. -/
theorem Spells.frame (h : Spells ps ls rest) :
    ∃ us, ls = us ++ rest ∧ ∀ ms, Spells ps (us ++ ms) ms := by
  induction h with
  | nil => exact ⟨[], rfl, fun _ => .nil⟩
  | @spaced l ps bs ls rest hb _ ih =>
    obtain ⟨us, rfl, hus⟩ := ih
    refine ⟨bs ++ l :: us, by simp, fun ms => ?_⟩
    rw [List.append_assoc, List.cons_append]
    exact .spaced hb (hus ms)
  | @glued l ps ls rest _ ih =>
    obtain ⟨us, rfl, hus⟩ := ih
    exact ⟨l :: us, rfl, fun ms => .glued (hus ms)⟩

end Spells

end Netlist
