/-!
# Sections of a definition

A definition has three sections in a fixed order. A `SectionHistory` keeps which of them were
entered so far and which one statements now belong to; it is the state of `SectionTracker`.
-/

namespace Netlist

/-- The sections of a definition. -/
inductive Section
  | device | connection | monitor
deriving DecidableEq, Repr

namespace Section

/-- The sections in their required order. -/
def all : List Section := [.device, .connection, .monitor]

/-- The word that heads a section. -/
def heading : Section → String
  | .device => "DEVICE"
  | .connection => "CONNECTION"
  | .monitor => "MONITOR"

/-- The place of a section in the required order. -/
def index : Section → Nat
  | .device => 0
  | .connection => 1
  | .monitor => 2

/-- The sections that have to come before. -/
def predecessors (s : Section) : List Section := all.takeWhile (· ≠ s)

end Section

/-- Why a section is misplaced. -/
inductive SectionFault
  /-- The section was opened before. -/
  | repeated (s : Section)
  /-- A section that has to come before `s` is missing. -/
  | missingBefore (s missing : Section)
deriving DecidableEq, Repr

/-- The wording of a misplaced section. -/
def SectionFault.message : SectionFault → String
  | .repeated s => "There are multiple " ++ s.heading ++ " sections in the file"
  | .missingBefore s missing =>
    "There is no " ++ missing.heading ++ " section before " ++ s.heading

/-- The sections entered so far. -/
structure SectionHistory where
  /-- The section that was entered last, misplaced or not. -/
  active : Option Section
  /-- The sections entered in order. -/
  opened : List Section
  /-- The sections entered out of order. -/
  misplaced : List Section
deriving DecidableEq, Repr

namespace SectionHistory

/-- The history before the first heading. -/
def empty : SectionHistory := ⟨none, [], []⟩

/-- Whether a section was entered, in order or not. -/
def entered (h : SectionHistory) (s : Section) : Bool :=
  h.opened.contains s || h.misplaced.contains s

/-- What is wrong with entering `s` now. A misplaced predecessor counts as present, so that one
wrong order is one fault. -/
def fault? (h : SectionHistory) (s : Section) : Option SectionFault :=
  if h.opened.contains s then some (.repeated s)
  else (s.predecessors.find? fun p => !h.entered p).map (.missingBefore s)

/-- Enters a section (`open`). It becomes the active one even when it is misplaced. -/
def enter (h : SectionHistory) (s : Section) : Except SectionFault Unit × SectionHistory :=
  match h.fault? s with
  | none => (.ok (), { h with active := some s, opened := h.opened.insert s })
  | some fault => (.error fault, { h with active := some s, misplaced := h.misplaced.insert s })

/-- The first section that was never opened, unless it was tried out of order (`first_missing`). -/
def firstMissing (h : SectionHistory) : Option Section :=
  (Section.all.find? fun s => !h.opened.contains s).filter fun s => !h.misplaced.contains s

end SectionHistory

end Netlist
