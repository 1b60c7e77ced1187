import Netlist.Proofs.Following
import Netlist.Proofs.Passage

/-!
# Where faults come from

A statement that cannot be read is refused for one of two kinds of problems. Most are found at the
next token, wherever it stands. Four are found right behind a token: behind a name where a dot has
to follow, and behind that dot where a pin has to follow. There the very next token is judged, white
space too, so the fault is at the token right behind.

Every other fault of a segment is one of its head, or of a statement that was read and is refused
when it is carried out. And a diagnostic of a reading is the fault of a segment, or tells what is
missing at the end of the input.

Whatever names a message about unread tokens shows, they stand among these tokens.

## Results

* `refuses_ask`: how a reader of one token refuses tokens.
* `Statement.refuses_read`: **how reading a statement refuses tokens.**
* `Refusal.told`: the names that the message shows are told by the tokens.
* `Draft.faulty_take`: where the fault of a segment comes from.
* `Reading.reports_readOn`: where the diagnostics of a reading come from.
-/

namespace Netlist

/-! ## Problems of tokens -/

/-- The names that the message of a problem shows. -/
def Problem.names : Problem → List String
  | .nameAlreadyUsed name | .deviceUndefined name | .dtypeDotExpected name | .singleOutput name =>
    [name]
  | .notAnInput pin device => [pin, device]
  | .inputAlreadyConnected device pin => [device, pin]
  | .inputsUnconnected inputs => inputs.flatMap fun i => [i.1, i.2]
  | .devicesUnused names => names
  | _ => []

/-- A kind of token that tells a name. -/
def TokenKind.Tells (k : TokenKind) (name : String) : Prop := ∃ w ∈ k.word?, w.text = name

/-- The problems that are found at the next token, wherever it stands. -/
inductive Problem.Loose : Problem → Prop
  | invalidName : Loose .invalidName
  | deviceUndefined {name : String} : Loose (.deviceUndefined name)
  | equalExpected : Loose .equalExpected
  | numberExpected {form : QualifierForm} : Loose (.numberExpected form)
  | stopExpected : Loose .stopExpected
  | singleOutput {name : String} : Loose (.singleOutput name)
  | arrowExpected : Loose .arrowExpected
  | notAnInput {pin device : String} : Loose (.notAnInput pin device)

/-- The kinds of the tokens of an output. -/
inductive OutputMention.Kinds : List TokenKind → Prop
  | plain {w : Word} : Kinds [.name w]
  | pin {w v : Word} : Kinds [.name w, .dot, .pin v]

/-- The problems that are found right behind the tokens read so far, by their kinds. -/
inductive Problem.Glued : List TokenKind → Problem → Prop
  /-- Behind the name of a D-type. -/
  | dtypeDot {w : Word} : Glued [.name w] (.dtypeDotExpected w.text)
  | dtypePin {w : Word} : Glued [.name w, .dot] .dtypePinExpected
  /-- Behind the name of the device that an output is connected to. -/
  | inputDot {ks : List TokenKind} {w : Word} (output : OutputMention.Kinds ks) :
      Glued (ks ++ [.arrow] ++ [.name w]) .inputDotExpected
  | inputPin {ks : List TokenKind} {w : Word} (output : OutputMention.Kinds ks) :
      Glued (ks ++ [.arrow] ++ [.name w] ++ [.dot]) .inputPinExpected

/-- Tokens read so far and their kinds, white space between them left out. -/
inductive ReadAs : List TokenKind → List Token → Prop
  | nil : ReadAs [] []
  | snoc {ks : List TokenKind} {ts blank : List Token} {t : Token} (read : ReadAs ks ts)
      (spaces : ∀ b ∈ blank, b.kind = .space) : ReadAs (ks ++ [t.kind]) (ts ++ blank ++ [t])

/-- The problems of a statement that is read and that a circuit refuses. -/
inductive Problem.Refused : Problem → Prop
  | nameAlreadyUsed {name : String} : Refused (.nameAlreadyUsed name)
  | invalidQualifier {form : Option QualifierForm} : Refused (.invalidQualifier form)
  | inputAlreadyConnected {device pin : String} : Refused (.inputAlreadyConnected device pin)
  | cannotConnect {reason : ConnectError} : Refused (.cannotConnect reason)
  | notAnOutput : Refused .notAnOutput
  | alreadyMonitored : Refused .alreadyMonitored

/-- How tokens are refused with a fault. -/
inductive Refusal (ts : List Token) (fault : Fault) : Prop
  /-- The problem is found wherever the token stands. -/
  | loose (problem : fault.problem.Loose)
      (told : ∀ name ∈ fault.problem.names, ∃ t ∈ ts, t.kind.Tells name)
  /-- The problem is found right behind the tokens read so far. -/
  | glued {ks : List TokenKind} {passed left : List Token} (tokens : ts = passed ++ left)
      (read : ReadAs ks passed) (problem : fault.problem.Glued ks)
      (place : fault.place = .ofToken? left.head?)

theorem ReadAs.exists_token {ks : List TokenKind} {ts : List Token} (h : ReadAs ks ts)
    {k : TokenKind} (hk : k ∈ ks) : ∃ t ∈ ts, t.kind = k := by
  induction h with
  | nil => cases hk
  | @snoc ks ts blank t read spaces ih =>
    rcases List.mem_append.mp hk with hk | hk
    · obtain ⟨u, hu, hkind⟩ := ih hk
      exact ⟨u, by simp [hu], hkind⟩
    · exact ⟨t, by simp, (List.mem_singleton.mp hk).symm⟩

/-- **The names that the message shows are told by the tokens.** -/
theorem Refusal.told {ts : List Token} {fault : Fault} (h : Refusal ts fault) :
    ∀ name ∈ fault.problem.names, ∃ t ∈ ts, t.kind.Tells name := by
  intro name hname
  cases h with
  | loose _ told => exact told name hname
  | glued tokens read problem _ =>
    obtain ⟨problem', place⟩ := fault
    cases problem with
    | dtypeDot =>
      obtain ⟨t, ht, hkind⟩ := read.exists_token List.mem_cons_self
      refine ⟨t, tokens ▸ List.mem_append_left _ ht, ?_⟩
      rw [hkind, List.mem_singleton.mp hname]
      exact ⟨_, rfl, rfl⟩
    | _ => cases hname

/-! ## Readers -/

/-- The faults of a reader are refusals of its tokens, behind tokens of the kinds `ks`. -/
def TokenReader.Refuses (ks : List TokenKind) {α : Type} (x : TokenReader (List Token) α) : Prop :=
  ∀ passed ts fault us, ReadAs ks passed → x.runOn ts = (.error fault, us) →
    Refusal (passed ++ ts) fault

section Readers

open TokenReader Statement

variable {α β : Type} {ks : List TokenKind} {glued : Bool} {fit : TokenKind → Option α}
  {problem : Problem} {ask : TokenReader (List Token) (α × Position)}

theorem exists_told {passed ts : List Token} (hread : ReadAs ks passed) {name : String}
    (h : ∃ k ∈ ks, k.Tells name) : ∃ t ∈ passed ++ ts, t.kind.Tells name := by
  obtain ⟨k, hk, htells⟩ := h
  obtain ⟨t, ht, rfl⟩ := hread.exists_token hk
  exact ⟨t, List.mem_append_left _ ht, htells⟩

theorem refuses_pure (b : β) : Refuses ks (pure b) := fun _ _ _ _ _ h => by
  cases (Prod.mk.inj h).1

/-- A problem is found behind the tokens read so far, and shows names that these tell. -/
theorem refuses_throw {fault : Fault} (h : fault.problem.Loose)
    (htold : ∀ name ∈ fault.problem.names, ∃ k ∈ ks, k.Tells name) :
    Refuses ks (throw fault : TokenReader (List Token) β) := fun passed ts _ _ hread he => by
  cases (Prod.mk.inj he).1
  exact .loose h fun name hname => exists_told hread (htold name hname)

theorem Form.exists_append_front (glued : Bool) (ts : List Token) :
    ∃ blank, ts = blank ++ front glued ts ∧ ∀ b ∈ blank, b.kind = .space := by
  cases glued with
  | true => exact ⟨[], rfl, nofun⟩
  | false =>
    refine ⟨ts.takeWhile (·.kind = .space), List.takeWhile_append_dropWhile.symm, fun b hb => ?_⟩
    simpa using List.mem_takeWhile_imp hb

theorem problem_of_fitted {t : Option Token} {fault : Fault}
    (h : fitted fit problem t = .error fault) : fault.problem = problem := by
  cases t with
  | none => cases h; rfl
  | some t =>
    cases ha : fit t.kind with
    | none =>
      rw [Form.fitted_of_none ha] at h
      cases h
      rfl
    | some a =>
      rw [Form.fitted_of_some ha] at h
      cases h

/-- **How a reader of one token refuses tokens**: either its problem is a loose one, or it is found
right behind the tokens read so far. -/
theorem refuses_ask (hask : Form.Asks glued fit problem ask)
    (hproblem : (problem.Loose ∧ problem.names = []) ∨ glued = true ∧ problem.Glued ks)
    {y : α × Position → TokenReader (List Token) β}
    (hy : ∀ (t : Token) a, fit t.kind = some a → Refuses (ks ++ [t.kind]) (y (a, t.position))) :
    Refuses ks (ask >>= y) := by
  intro passed ts fault us hread h
  have hrefused (he : fault = ⟨problem, .ofToken? (Form.front glued ts).head?⟩) :
      Refusal (passed ++ ts) fault := by
    subst he
    rcases hproblem with ⟨hloose, hnames⟩ | ⟨rfl, hglued⟩
    · exact .loose hloose (hnames ▸ nofun)
    · exact .glued rfl hread hglued rfl
  rw [runOn_bind, hask ts] at h
  obtain ⟨blank, hblank, hspaces⟩ := Form.exists_append_front glued ts
  cases hfront : Form.front glued ts with
  | nil =>
    rw [hfront] at h hrefused
    exact hrefused (Except.error.inj (Prod.mk.inj h).1).symm
  | cons t left =>
    rw [hfront] at h hrefused hblank
    rw [List.head?_cons] at h
    cases ha : fit t.kind with
    | none =>
      rw [Form.fitted_of_none ha] at h
      exact hrefused (Except.error.inj (Prod.mk.inj h).1).symm
    | some a =>
      rw [Form.fitted_of_some ha] at h
      have hleft := hy t a ha (passed ++ blank ++ [t]) left fault us (hread.snoc hspaces) h
      rw [hblank]
      simpa using hleft

theorem TokenKind.eq_of_only {k found : TokenKind} {u : Unit} (h : only k found = some u) :
    found = k := by
  unfold only at h
  split at h
  · assumption
  · cases h

theorem TokenKind.eq_of_pin? {k : TokenKind} {w : Word} (h : k.pin? = some w) : k = .pin w := by
  cases k with
  | pin v => rw [Option.some.inj h]
  | _ => cases h

/-- A reader of a sign refuses tokens. -/
theorem refuses_sign {k : TokenKind} {ask : TokenReader (List Token) (Unit × Position)}
    (hask : Form.Asks glued (TokenKind.only k) problem ask)
    (hproblem : (problem.Loose ∧ problem.names = []) ∨ glued = true ∧ problem.Glued ks)
    {y : Unit × Position → TokenReader (List Token) β}
    (hy : ∀ p, Refuses (ks ++ [k]) (y ((), p))) : Refuses ks (ask >>= y) :=
  refuses_ask hask hproblem fun _ _ ht => TokenKind.eq_of_only ht ▸ hy _

theorem refuses_readName {y : Word × Position → TokenReader (List Token) β}
    (hy : ∀ w p, Refuses (ks ++ [.name w]) (y (w, p))) : Refuses ks (readName >>= y) := by
  refine refuses_ask Form.asks_expect (.inl ⟨.invalidName, rfl⟩) fun t w hw => ?_
  obtain ⟨kind, p⟩ := t
  cases kind with
  | name v =>
    cases hw
    exact hy w p
  | _ => cases hw

theorem refuses_readStop {y : Unit → TokenReader (List Token) β}
    (hy : Refuses (ks ++ [.semicolon]) (y ())) : Refuses ks (readStop >>= y) := by
  unfold readStop
  rw [bind_assoc]
  exact refuses_sign Form.asks_expect (.inl ⟨.stopExpected, rfl⟩) fun _ => hy

theorem refuses_readQualifier {form : QualifierForm}
    {y : Qualifier × Position → TokenReader (List Token) β}
    (hy : ∀ q ks, Refuses ks (y q)) : Refuses ks (readQualifier form >>= y) := by
  unfold readQualifier
  simp only [bind_assoc, pure_bind]
  refine refuses_sign Form.asks_expect (.inl ⟨.equalExpected, rfl⟩) fun _ => ?_
  exact refuses_ask Form.asks_expect (.inl ⟨.numberExpected, rfl⟩) fun _ _ _ => hy _ _

theorem refuses_readDeclaration (kind : DeviceKind) : Refuses ks (readDeclaration kind) := by
  unfold readDeclaration
  refine refuses_readName fun w p => ?_
  cases kind.qualifierForm? with
  | none => exact refuses_readStop (refuses_pure _)
  | some form =>
    simp only [pure_bind]
    exact refuses_readQualifier fun q _ => refuses_readStop (refuses_pure _)

variable {c : Circuit}

theorem refuses_readDevice {y : Word × Device × Position → TokenReader (List Token) β}
    (hy : ∀ w d p, Refuses (ks ++ [.name w]) (y (w, d, p))) : Refuses ks (readDevice c >>= y) := by
  unfold readDevice
  rw [bind_assoc]
  refine refuses_readName fun w p => ?_
  simp only
  cases c.device? w.id with
  | none =>
    refine refuses_throw .deviceUndefined fun name hname => ?_
    rw [List.mem_singleton.mp hname]
    exact ⟨.name w, by simp, w, rfl, rfl⟩
  | some d => exact hy w d p

theorem refuses_readOutput {y : OutputMention → TokenReader (List Token) β}
    (hy : ∀ m ks, OutputMention.Kinds ks → (∃ k ∈ ks, k.Tells m.device.text) →
      Refuses ks (y m)) :
    Refuses [] (readOutput c >>= y) := by
  unfold readOutput
  rw [bind_assoc]
  refine refuses_readDevice fun w d p => ?_
  simp only
  split
  · simp only [bind_assoc, pure_bind]
    refine refuses_sign Form.asks_expectRaw (.inr ⟨rfl, .dtypeDot⟩) fun _ => ?_
    refine refuses_ask Form.asks_expectRaw (.inr ⟨rfl, .dtypePin⟩) fun t v hv => ?_
    obtain ⟨kind, q⟩ := t
    cases kind with
    | pin u => exact hy _ _ .pin ⟨.name w, List.mem_cons_self, w, rfl, rfl⟩
    | _ => cases hv
  · exact hy _ _ .plain ⟨.name w, List.mem_cons_self, w, rfl, rfl⟩

theorem refuses_readBehind {m : OutputMention} {k : TokenKind}
    {y : Unit → TokenReader (List Token) β} (hproblem : problem.Loose) (hnames : problem.names = [])
    (htold : ∃ k ∈ ks, k.Tells m.device.text) (hy : Refuses (ks ++ [k]) (y ())) :
    Refuses ks (readBehind m k problem >>= y) := by
  have hexpected : Refuses ks (expect (TokenKind.only k) problem >>= fun _ => y ()) :=
    refuses_sign Form.asks_expect (.inl ⟨hproblem, hnames⟩) fun _ => hy
  intro passed ts fault us hread h
  unfold readBehind at h
  rw [bind_assoc, runOn_bind, runOn_next] at h
  simp only at h
  split at h
  · cases (Prod.mk.inj h).1
    refine .loose .singleOutput fun name hname => ?_
    rw [List.mem_singleton.mp hname]
    exact exists_told hread htold
  · refine hexpected passed ts fault us hread ?_
    rw [bind_assoc, runOn_bind, runOn_fit] at h
    rw [runOn_bind, runOn_expect]
    exact h

theorem refuses_readMonitor : Refuses [] (readMonitor c) := by
  unfold readMonitor
  exact refuses_readOutput fun m _ _ htold =>
    refuses_readBehind .stopExpected rfl htold (refuses_pure _)

theorem refuses_readConnection : Refuses [] (readConnection c) := by
  unfold readConnection
  refine refuses_readOutput fun m ks hks htold => refuses_readBehind .arrowExpected rfl htold ?_
  refine refuses_readDevice fun w d p => ?_
  refine refuses_sign Form.asks_expectRaw (.inr ⟨rfl, .inputDot hks⟩) fun _ => ?_
  refine refuses_ask Form.asks_expectRaw (.inr ⟨rfl, .inputPin hks⟩) fun t v hv => ?_
  have hpin : t.kind = .pin v := TokenKind.eq_of_pin? hv
  simp only
  split
  · refine refuses_throw .notAnInput fun name hname => ?_
    rcases List.mem_pair.mp hname with rfl | rfl
    · exact ⟨t.kind, by simp, v, by rw [hpin]; rfl, rfl⟩
    · exact ⟨.name w, by simp, w, rfl, rfl⟩
  · exact refuses_readStop (refuses_pure _)

theorem Refuses.map {x : TokenReader (List Token) α} (hx : Refuses ks x) (make : α → β) :
    Refuses ks (do return make (← x)) := by
  intro passed ts fault us hread h
  rw [runOn_bind] at h
  cases hr : x.runOn ts with
  | mk answer vs =>
    rw [hr] at h
    cases answer with
    | ok a => cases (Prod.mk.inj h).1
    | error _ =>
      cases (Prod.mk.inj h).1
      exact hx passed ts fault vs hread hr

/-- **How reading a statement refuses tokens.** -/
theorem Statement.refuses_read (c : Circuit) (k : Keyword) : Refuses [] (read c k) := by
  cases k with
  | device kind => exact Refuses.map (refuses_readDeclaration kind) _
  | connect => exact Refuses.map refuses_readConnection _
  | monitor => exact Refuses.map refuses_readMonitor _

end Readers

/-! ## Segments -/

/-- How a circuit refuses a statement that was read. -/
inductive Draft.RefusedBy (d : Draft) : Statement → Fault → Prop
  | declaration {s : Declaration} {e : DeclareError}
      (answer : d.circuit.declare s.name.id s.kind (s.qualifier.map Prod.fst) = .error e) :
      RefusedBy d (.declaration s) (declarationFault s e)
  | connection {s : Connection} {e : ConnectError}
      (answer : d.circuit.connect s.source.output s.sink = .error e) :
      RefusedBy d (.connection s) (connectionFault s e)
  | monitor {m : OutputMention} {e : MonitorError}
      (answer : d.circuit.monitor m.output = .error e) :
      RefusedBy d (.monitor m) (monitorFault m e)

theorem Draft.refusedBy_of_apply {d : Draft} {st : Statement} {fault : Fault}
    (h : d.apply st = .error fault) : d.RefusedBy st fault := by
  unfold apply at h
  cases st with
  | declaration s =>
    simp only at h
    split at h
    · cases h
    · cases h
      exact .declaration ‹_›
  | connection s =>
    simp only at h
    split at h
    · cases h
    · cases h
      exact .connection ‹_›
  | monitor m =>
    simp only at h
    split at h
    · cases h
    · cases h
      exact .monitor ‹_›

theorem Draft.RefusedBy.refused {d : Draft} {st : Statement} {fault : Fault}
    (h : d.RefusedBy st fault) : fault.problem.Refused := by
  cases h with
  | @declaration s e _ => cases e <;> constructor
  | @connection s e _ => cases e <;> constructor
  | @monitor m e _ => cases e <;> constructor

/-- Where the fault of a segment comes from. -/
inductive Draft.Faulty (d : Draft) (g : Segment) : Fault → Prop
  /-- The head starts nothing. -/
  | stray : Faulty d g ⟨.strayToken, .token g.head.position⟩
  /-- The colon of a heading is missing. -/
  | bare {s : Section} {place : Place} : Faulty d g ⟨.colonExpected s, place⟩
  /-- A heading is out of order. -/
  | misplaced {fault : SectionFault} {place : Place} : Faulty d g ⟨.misplacedSection fault, place⟩
  /-- A statement is not in its section. -/
  | outside {k : Keyword} {place : Place} : Faulty d g ⟨.outsideSection k, place⟩
  /-- A statement cannot be read. -/
  | unread {fault : Fault} {k : Keyword} {w : Word} (head : g.head.kind = .keyword k w)
      (refusal : Refusal g.tail fault) : Faulty d g fault
  /-- A statement is read and cannot be carried out. -/
  | refused {fault : Fault} {k : Keyword} {w : Word} {st : Statement}
      (head : g.head.kind = .keyword k w)
      (read : ((Statement.read d.circuit k).runOn g.tail).1 = .ok st)
      (refusal : d.RefusedBy st fault) : Faulty d g fault

/-- **Where the fault of a segment comes from.** -/
theorem Draft.faulty_take {d : Draft} {g : Segment} {fault : Fault}
    (h : (d.take g).1 = some fault) : d.Faulty g fault := by
  unfold take at h
  split at h
  · rename_i s w _
    unfold takeHeading at h
    split at h
    · rename_i hcolon
      cases h
      rw [TokenReader.runOn_expect] at hcolon
      obtain ⟨problem, place⟩ := fault
      obtain rfl : problem = .colonExpected s := problem_of_fitted hcolon
      exact .bare
    · unfold enter at h
      cases hfault : (d.sections.enter s).1 with
      | ok _ =>
        simp only [hfault] at h
        cases h
      | error e =>
        simp only [hfault] at h
        cases h
        exact .misplaced
  · rename_i k w hkind
    split at h
    · cases h
    · rename_i hstatement
      cases h
      unfold takeStatement at hstatement
      split at hstatement
      · split at hstatement
        · rename_i st hst
          exact .refused hkind hst (refusedBy_of_apply hstatement)
        · rename_i fault' hread
          cases hstatement
          exact .unread hkind
            (Statement.refuses_read d.circuit k [] g.tail _ _ .nil (Prod.ext hread rfl))
      · cases hstatement
        exact .outside
  · cases h
    exact .stray

/-- What is missing at the end of the input. -/
theorem Draft.mem_omissions {d : Draft} {names : NameTable} {faultless : Bool} {problem : Problem}
    (h : problem ∈ d.omissions names faultless) :
    (∃ s, problem = .sectionAbsent s) ∨
      problem = .inputsUnconnected
        (d.circuit.unconnected.map fun i => (nameText names i.device, nameText names i.pin)) ∨
      problem = .devicesUnused (d.unused.keys.map (nameText names)) := by
  unfold omissions at h
  rcases List.mem_append.mp h with h | h
  · rcases List.mem_append.mp h with h | h
    · unfold absentSection at h
      split at h
      · obtain ⟨s, -, rfl⟩ := Option.map_eq_some_iff.mp (Option.mem_toList.mp h)
        exact .inl ⟨s, rfl⟩
      · cases h
    · unfold unconnectedInputs at h
      split at h
      · cases h
      · exact .inr (.inl (List.mem_singleton.mp h))
  · unfold unusedDevices at h
    split at h
    · cases h
    · exact .inr (.inr (List.mem_singleton.mp h))

/-! ## Readings -/

namespace Reading

/-- The diagnostics that a reading reports. -/
inductive Reports (r : Reading) : Diagnostic → Prop
  /-- The fault of a segment. -/
  | fault {gs : List Segment} {mid : Reading} {g : Segment} {stream : TokenStream} {fault : Fault}
      (passes : r.Passes gs mid) (next : mid.stream.segment? = some (g, stream))
      (faulty : (mid.draft.take g).1 = some fault) :
      Reports r ⟨mid.log.count + 1, fault.problem.message, mid.log.excerpt fault.place⟩
  /-- What is missing at the end of the input. -/
  | omission {gs : List Segment} {last : Reading} {problem : Problem} {number : Nat}
      (ends : r.ReachesEnd gs last)
      (missing : problem ∈ last.draft.omissions last.names last.clean) :
      Reports r ⟨number, problem.message, none⟩

variable {r : Reading} {g : Segment} {stream : TokenStream} {d : Diagnostic}

theorem Reports.behind (h : (r.takeSegment g stream).Reports d)
    (next : r.stream.segment? = some (g, stream))
    (below : (r.takeSegment g stream).limitReached = false) : r.Reports d := by
  cases h with
  | fault passes next' faulty => exact .fault (.segment next below passes) next' faulty
  | omission ends missing => exact .omission ⟨.segment next below ends.passes, ends.ended⟩ missing

theorem reports_takeSegment (next : r.stream.segment? = some (g, stream))
    (hd : d ∈ (r.takeSegment g stream).log.diagnostics) : d ∈ r.log.diagnostics ∨ r.Reports d := by
  rw [log_takeSegment] at hd
  cases hfault : (r.draft.take g).1 with
  | none =>
    rw [hfault] at hd
    exact .inl hd
  | some fault =>
    rw [hfault] at hd
    refine (List.mem_append.mp hd).imp_right fun hd => ?_
    rw [List.mem_singleton.mp hd]
    exact .fault (.refl r) next hfault

/-- **Where the diagnostics of a reading come from.** -/
theorem reports_readOn (r : Reading) (hd : d ∈ r.readOn.2.log.diagnostics) :
    d ∈ r.log.diagnostics ∨ r.Reports d := by
  fun_induction readOn r with
  | case1 r hnone =>
    have hd : d ∈ r.complete.log.diagnostics := hd
    rw [diagnostics_complete_eq] at hd
    refine (List.mem_append.mp hd).imp_right fun hd => ?_
    obtain ⟨i, hi, rfl⟩ := List.mem_mapIdx.mp hd
    rw [List.getElem_map]
    exact .omission ⟨.refl r, hnone⟩ (List.getElem_mem _)
  | case2 r g stream next r' hr' => exact reports_takeSegment next hd
  | case3 r g stream next r' hr' ih =>
    rcases ih hd with hd | hreports
    · exact reports_takeSegment next hd
    · exact .inr (hreports.behind next (Bool.not_eq_true _ ▸ hr'))

end Reading

end Netlist
