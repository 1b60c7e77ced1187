import Netlist.Proofs.Lockstep

/-!
# Positions are carried along

A position is read off a token and handed on to a fault, and nothing is ever decided by it. So when
all positions of a segment are moved by a function, the fault is moved with them, and the draft is
the same.

## Results

* `Moves`: the law of a reader that only carries positions along; `Moves.bind` keeps it.
* `Draft.take_move`: **what a segment does to a draft does not depend on where it stands.**
-/

namespace Netlist

section Move

variable (f : Position → Position)

/-! ## Moving positions -/

/-- The token with its position moved. -/
def Token.move (t : Token) : Token := { t with position := f t.position }

/-- The place with its position moved. -/
def Place.move : Place → Place
  | .token p => .token (f p)
  | .endOfInput => .endOfInput

/-- The fault with its place moved. -/
def Fault.move (fault : Fault) : Fault := { fault with place := fault.place.move f }

/-- The declaration with its positions moved. -/
def Declaration.move (s : Declaration) : Declaration :=
  { s with
    namePosition := f s.namePosition
    qualifier := s.qualifier.map (Prod.map id f) }

/-- The mention of an output with its position moved. -/
def OutputMention.move (m : OutputMention) : OutputMention := { m with position := f m.position }

/-- The connection with its positions moved. -/
def Connection.move (s : Connection) : Connection :=
  { s with
    source := s.source.move f
    pinPosition := f s.pinPosition }

/-- The statement with its positions moved. -/
def Statement.move : Statement → Statement
  | .declaration s => .declaration (s.move f)
  | .connection s => .connection (s.move f)
  | .monitor m => .monitor (m.move f)

/-- The segment with its positions moved. -/
def Segment.move (g : Segment) : Segment := ⟨g.head.move f, g.tail.map (Token.move f)⟩

/-- An answer of a reader with its positions moved, where `g` moves those of what was read. -/
def movedAnswer {α : Type} (g : α → α) : Except Fault α × List Token → Except Fault α × List Token
  | (.ok a, ts) => (.ok (g a), ts.map (Token.move f))
  | (.error fault, ts) => (.error (fault.move f), ts.map (Token.move f))

/-- On moved tokens, `x'` answers what `x` answers, moved. -/
def Moves {α : Type} (g : α → α) (x x' : TokenReader (List Token) α) : Prop :=
  ∀ ts, x'.runOn (ts.map (Token.move f)) = movedAnswer f g (x.runOn ts)

end Move

/-! ## Readers -/

section Readers

variable {f : Position → Position} {α β : Type} {g : α → α} {h : β → β}
  {x x' : TokenReader (List Token) α}

theorem Moves.bind {k k' : α → TokenReader (List Token) β} (hx : Moves f g x x')
    (hk : ∀ a, Moves f h (k a) (k' (g a))) : Moves f h (x >>= k) (x' >>= k') := by
  intro ts
  rw [TokenReader.runOn_bind, TokenReader.runOn_bind, hx]
  cases x.runOn ts with
  | mk answer rest =>
    cases answer with
    | ok a => exact hk a rest
    | error fault => rfl

theorem moves_pure (a : α) : Moves f g (pure a) (pure (g a)) := fun _ => rfl

theorem moves_throw (fault : Fault) :
    Moves f g (throw fault : TokenReader (List Token) α) (throw (fault.move f)) := fun _ => rfl

theorem nextRaw_map_move (ts : List Token) :
    TokenSource.nextRaw (ts.map (Token.move f)) =
      ((TokenSource.nextRaw ts).1.map (Token.move f),
        (TokenSource.nextRaw ts).2.map (Token.move f)) := by
  cases ts <;> rfl

theorem dropWhile_map_move (ts : List Token) :
    (ts.map (Token.move f)).dropWhile (·.kind = .space) =
      (ts.dropWhile (·.kind = .space)).map (Token.move f) := List.dropWhile_map

theorem next_map_move (ts : List Token) :
    TokenSource.next (ts.map (Token.move f)) =
      ((TokenSource.next ts).1.map (Token.move f), (TokenSource.next ts).2.map (Token.move f)) := by
  show (((ts.map (Token.move f)).dropWhile _).head?, ((ts.map (Token.move f)).dropWhile _).tail) = _
  rw [dropWhile_map_move]
  exact nextRaw_map_move _

theorem moves_next : Moves f (Option.map (Token.move f)) TokenReader.next TokenReader.next := by
  intro ts
  rw [TokenReader.runOn_next, next_map_move]
  rfl

theorem moves_nextRaw :
    Moves f (Option.map (Token.move f)) TokenReader.nextRaw TokenReader.nextRaw := by
  intro ts
  rw [TokenReader.runOn_nextRaw, nextRaw_map_move]
  rfl

theorem moves_refuse (problem : Problem) (t : Option Token) :
    Moves f g (TokenReader.refuse problem t) (TokenReader.refuse problem (t.map (Token.move f))) := by
  cases t <;> exact moves_throw _

variable {fit : TokenKind → Option α} {problem : Problem}

theorem moves_fit (t : Option Token) :
    Moves f (Prod.map id f) (TokenReader.fit fit problem t)
      (TokenReader.fit fit problem (t.map (Token.move f))) := by
  cases t with
  | none => exact moves_refuse problem none
  | some t =>
    simp only [TokenReader.fit, Option.map_some, Token.move]
    cases fit t.kind with
    | none => exact moves_refuse problem (some t)
    | some a => exact moves_pure _

theorem moves_expect :
    Moves f (Prod.map id f) (TokenReader.expect fit problem) (TokenReader.expect fit problem) :=
  moves_next.bind moves_fit

theorem moves_expectRaw :
    Moves f (Prod.map id f) (TokenReader.expectRaw fit problem)
      (TokenReader.expectRaw fit problem) :=
  moves_nextRaw.bind moves_fit

/-! ## Readers of statements -/

open Statement

theorem moves_readStop : Moves f id readStop readStop :=
  moves_expect.bind fun _ => moves_pure ()

theorem moves_readQualifier (form : QualifierForm) :
    Moves f (Prod.map id f) (readQualifier form) (readQualifier form) :=
  moves_expect.bind fun _ => moves_expect.bind fun _ => moves_pure _

theorem moves_readDeclaration (kind : DeviceKind) :
    Moves f (Declaration.move f) (readDeclaration kind) (readDeclaration kind) := by
  unfold readDeclaration
  refine moves_expect.bind ?_
  rintro ⟨w, p⟩
  have hrest (q : Option (Qualifier × Position)) : Moves f (Declaration.move f)
      (do readStop; pure ⟨kind, w, p, q⟩)
      (do readStop; pure ⟨kind, w, f p, q.map (Prod.map id f)⟩) :=
    moves_readStop.bind fun _ => moves_pure _
  simp only [Prod.map, id]
  cases kind.qualifierForm? with
  | none => exact hrest none
  | some form => exact (moves_readQualifier form).bind fun q => hrest (some q)

theorem moves_readDevice (c : Circuit) :
    Moves f (fun a => (a.1, a.2.1, f a.2.2)) (readDevice c) (readDevice c) := by
  unfold readDevice
  refine moves_expect.bind ?_
  rintro ⟨w, p⟩
  simp only [Prod.map, id]
  cases c.device? w.id with
  | none => exact moves_throw _
  | some d => exact moves_pure _

theorem moves_readOutput (c : Circuit) :
    Moves f (OutputMention.move f) (readOutput c) (readOutput c) := by
  unfold readOutput
  refine (moves_readDevice c).bind ?_
  rintro ⟨w, d, p⟩
  simp only
  split
  · exact moves_expectRaw.bind fun _ => moves_expectRaw.bind fun _ => moves_pure _
  · exact moves_pure _

theorem moves_readBehind (m : OutputMention) (k : TokenKind) (problem : Problem) :
    Moves f id (readBehind m k problem) (readBehind (m.move f) k problem) := by
  unfold readBehind
  refine moves_next.bind fun t => ?_
  have hkind : (t.map (Token.move f)).map Token.kind = t.map Token.kind := by
    cases t <;> rfl
  simp only [hkind, OutputMention.move]
  split
  · exact moves_refuse _ t
  · exact (moves_fit t).bind fun _ => moves_pure ()

theorem moves_readConnection (c : Circuit) :
    Moves f (Connection.move f) (readConnection c) (readConnection c) := by
  unfold readConnection
  refine (moves_readOutput c).bind fun m => ?_
  refine (moves_readBehind m .arrow .arrowExpected).bind fun _ => ?_
  refine (moves_readDevice c).bind ?_
  rintro ⟨w, d, p⟩
  refine moves_expectRaw.bind fun _ => ?_
  refine moves_expectRaw.bind ?_
  rintro ⟨v, q⟩
  simp only [Prod.map, id]
  split
  · exact moves_throw _
  · exact moves_readStop.bind fun _ => moves_pure _

theorem moves_readMonitor (c : Circuit) :
    Moves f (OutputMention.move f) (readMonitor c) (readMonitor c) := by
  unfold readMonitor
  refine (moves_readOutput c).bind fun m => ?_
  exact (moves_readBehind m .semicolon .stopExpected).bind fun _ => moves_pure m

/-- **A statement is read with its positions.** -/
theorem moves_read (c : Circuit) (k : Keyword) :
    Moves f (Statement.move f) (Statement.read c k) (Statement.read c k) := by
  cases k with
  | device kind => exact (moves_readDeclaration kind).bind fun _ => moves_pure _
  | connect => exact (moves_readConnection c).bind fun _ => moves_pure _
  | monitor => exact (moves_readMonitor c).bind fun _ => moves_pure _

end Readers

/-! ## Drafts -/

namespace Draft

variable {f : Position → Position} (d : Draft)

theorem declarationFault_move (s : Declaration) (e : DeclareError) :
    declarationFault (s.move f) e = (declarationFault s e).move f := by
  obtain ⟨kind, name, p, qualifier⟩ := s
  cases e with
  | nameAlreadyUsed => rfl
  | invalidQualifier => cases qualifier <;> rfl

theorem connectionFault_move (s : Connection) (e : ConnectError) :
    connectionFault (s.move f) e = (connectionFault s e).move f := by
  cases e <;> rfl

theorem monitorFault_move (m : OutputMention) (e : MonitorError) :
    monitorFault (m.move f) e = (monitorFault m e).move f := by
  cases e <;> rfl

/-- A statement is refused with its positions. -/
theorem apply_move (st : Statement) :
    d.apply (st.move f) = (d.apply st).mapError (Fault.move f) := by
  unfold apply Statement.move
  cases st with
  | declaration s =>
    have hqualifier : (s.move f).qualifier.map Prod.fst = s.qualifier.map Prod.fst := by
      unfold Declaration.move
      rw [Option.map_map]
      rfl
    have hname : (s.move f).name = s.name := rfl
    have hkind : (s.move f).kind = s.kind := rfl
    simp only [hqualifier, hname, hkind, declarationFault_move]
    cases d.circuit.declare s.name.id s.kind (s.qualifier.map Prod.fst) <;> rfl
  | connection s =>
    have hsource : (s.move f).source.output = s.source.output := rfl
    have hsink : (s.move f).sink = s.sink := rfl
    simp only [hsource, hsink, connectionFault_move]
    cases d.circuit.connect s.source.output s.sink <;> rfl
  | monitor m =>
    have houtput : (m.move f).output = m.output := rfl
    simp only [houtput, monitorFault_move]
    cases d.circuit.monitor m.output <;> rfl

theorem takeStatement_move (k : Keyword) (p : Position) (tail : List Token) :
    d.takeStatement k (f p) (tail.map (Token.move f)) =
      (d.takeStatement k p tail).mapError (Fault.move f) := by
  unfold takeStatement
  split
  · have hread := congrArg Prod.fst (moves_read (f := f) d.circuit k tail)
    rw [hread]
    cases (Statement.read d.circuit k).runOn tail with
    | mk answer rest =>
      cases answer with
      | ok st => exact d.apply_move st
      | error fault => rfl
  · rfl

theorem enter_move (s : Section) (p : Position) :
    d.enter s (f p) = ((d.enter s p).1.map (Fault.move f), (d.enter s p).2) := by
  unfold enter
  cases d.sections.enter s with
  | mk answer sections => cases answer <;> rfl

theorem takeHeading_move (s : Section) (p : Position) (tail : List Token) :
    d.takeHeading s (f p) (tail.map (Token.move f)) =
      ((d.takeHeading s p tail).1.map (Fault.move f), (d.takeHeading s p tail).2) := by
  have hcolon : Moves f _ (TokenReader.expect (TokenKind.only .colon) (.colonExpected s)) _ :=
    moves_expect
  have hread := congrArg Prod.fst (hcolon tail)
  unfold takeHeading
  rw [hread]
  cases (TokenReader.expect (TokenKind.only .colon) (.colonExpected s)).runOn tail with
  | mk answer rest =>
    cases answer with
    | ok _ => exact d.enter_move s p
    | error fault => rfl

/-- **What a segment does to a draft does not depend on where it stands**, and its fault moves with
it. -/
theorem take_move (g : Segment) :
    d.take (g.move f) = ((d.take g).1.map (Fault.move f), (d.take g).2) := by
  have hkind : (g.move f).head.kind = g.head.kind := rfl
  unfold take
  rw [hkind]
  cases g.head.kind with
  | heading s w => exact d.takeHeading_move s g.head.position g.tail
  | keyword k w =>
    have hstatement := d.takeStatement_move (f := f) k g.head.position g.tail
    simp only [Segment.move, Token.move] at hstatement ⊢
    rw [hstatement]
    cases d.takeStatement k g.head.position g.tail <;> rfl
  | _ => rfl

/-- Segments that differ in their positions only have the same problem, and do the same. -/
theorem take_of_move {g g' : Segment} (h : g.move f = g'.move f) :
    (d.take g).1.map Fault.problem = (d.take g').1.map Fault.problem ∧
      (d.take g).2 = (d.take g').2 := by
  have htake := d.take_move (f := f) g
  rw [h, take_move] at htake
  obtain ⟨hfault, hdraft⟩ := Prod.mk.inj htake
  have hproblem := congrArg (Option.map Fault.problem) hfault
  rw [Option.map_map, Option.map_map] at hproblem
  exact ⟨hproblem.symm, hdraft.symm⟩

end Draft

end Netlist
