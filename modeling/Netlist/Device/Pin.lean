import Netlist.NameTable

/-!
# Pins

The reserved words for pins, and their identifiers in a name table.
-/

namespace Netlist

namespace Pin

/-- The inputs of gates, in order. -/
def numberedWords : List String :=
  ["I1", "I2", "I3", "I4", "I5", "I6", "I7", "I8",
   "I9", "I10", "I11", "I12", "I13", "I14", "I15", "I16"]

/-- The inputs of a D-type. -/
def dtypeInputWords : List String := ["DATA", "CLK", "SET", "CLEAR"]

/-- The outputs of a D-type. -/
def dtypeOutputWords : List String := ["Q", "QBAR"]

/-- Every reserved word for a pin. -/
def words : List String := numberedWords ++ dtypeInputWords ++ dtypeOutputWords

end Pin

/-- The identifiers of the pin words, in the order of `Pin.words` (`PinIds`). -/
structure Pins where
  numbered : List NameId
  dtypeInputs : List NameId
  dtypeOutputs : List NameId
deriving DecidableEq, Repr

/-- Interns the pin words. -/
def Pins.intern (t : NameTable) : Pins × NameTable :=
  let (numbered, t) := t.internAll Pin.numberedWords
  let (dtypeInputs, t) := t.internAll Pin.dtypeInputWords
  let (dtypeOutputs, t) := t.internAll Pin.dtypeOutputWords
  (⟨numbered, dtypeInputs, dtypeOutputs⟩, t)

end Netlist
