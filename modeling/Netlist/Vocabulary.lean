import Netlist.Device.Kind
import Netlist.Device.Pin
import Netlist.Section

/-!
# Reserved words

The vocabulary of a name table: the identifiers of the section headings, of the keywords and of the
pin words. A word is classified by its identifier alone. The vocabulary is made once, with the
scanner, and never changes.
-/

namespace Netlist

/-- What a keyword introduces. -/
inductive Keyword
  | device (kind : DeviceKind)
  | connect
  | monitor
deriving DecidableEq, Repr

namespace Keyword

/-- All keywords, in the order of their interning. -/
def all : List Keyword := DeviceKind.all.map .device ++ [.connect, .monitor]

/-- The reserved word of a keyword. -/
def word : Keyword → String
  | .device kind => kind.keyword
  | .connect => "CON"
  | .monitor => "MON"

/-- The section that the statements of a keyword belong to. -/
def homeSection : Keyword → Section
  | .device _ => .device
  | .connect => .connection
  | .monitor => .monitor

end Keyword

/-- What a word stands for. -/
inductive WordClass
  | heading (s : Section)
  | keyword (k : Keyword)
  | pin
  | name
deriving DecidableEq, Repr

/-- The reserved words of a name table, by identifier. -/
structure Vocabulary where
  headings : List (NameId × Section)
  keywords : List (NameId × Keyword)
  pins : List NameId
deriving DecidableEq, Repr

namespace Vocabulary

/-- The pin words, in the order of their interning. -/
def pinWords : List String := Pin.numberedWords ++ Pin.dtypeOutputWords ++ Pin.dtypeInputWords

/-- Interns every reserved word. -/
def intern (t : NameTable) : Vocabulary × NameTable :=
  let (headings, t) := t.internAll (Section.all.map Section.heading)
  let (keywords, t) := t.internAll (Keyword.all.map Keyword.word)
  let (pins, t) := t.internAll pinWords
  (⟨headings.zip Section.all, keywords.zip Keyword.all, pins⟩, t)

/-- The section that an identifier heads (`section`). -/
def section? (v : Vocabulary) (id : NameId) : Option Section := v.headings.lookup id

/-- The keyword under an identifier (`keyword`). -/
def keyword? (v : Vocabulary) (id : NameId) : Option Keyword := v.keywords.lookup id

/-- Whether an identifier is a pin word (`is_pin`). -/
def isPin (v : Vocabulary) (id : NameId) : Bool := v.pins.contains id

/-- What the word under an identifier stands for (`classify`). -/
def classify (v : Vocabulary) (id : NameId) : WordClass :=
  match v.section? id with
  | some s => .heading s
  | none =>
    match v.keyword? id with
    | some k => .keyword k
    | none => if v.isPin id then .pin else .name

end Vocabulary

end Netlist
