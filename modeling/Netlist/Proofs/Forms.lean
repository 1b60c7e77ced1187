import Netlist.Statement

/-!
# The forms of statements

What a statement looks like is told here apart from how it is read: a `Form` says token by token
what is expected, and comparing the tokens of a source with it either matches tokens or finds the
first one that does not fit. What is expected may depend on the tokens in front: behind a D-type
there is a pin, and behind the dot of an input a pin of that device.

The tokens that match spell a statement (`Statement.Spelled`), and the devices that it names are as
its form asks for (`Statement.Fits`).

## Results

* `Form.compare_append`: comparing with two forms, one behind the other.
* `Form.mem_of_compare`: what matches, and what is left, are tokens that were there.
-/

namespace Netlist

/-! ## Forms -/

/-- What is expected of tokens, one after the other. -/
inductive Form
  /-- Nothing more is expected. -/
  | done
  /-- Expects a token that `fits`, without white space in front of it if it is `glued`. What comes
  behind it depends on its kind. -/
  | token (glued : Bool) (fits : TokenKind → Bool) (behind : TokenKind → Form)

namespace Form

/-- One form behind another. -/
def append : Form → Form → Form
  | done, g => g
  | token glued fits behind, g => token glued fits fun k => (behind k).append g

instance : Append Form := ⟨append⟩

/-- A single token, behind white space or not. -/
def one (fits : TokenKind → Bool) : Form := token false fits fun _ => done

/-- A single token with no white space in front of it. -/
def glued (fits : TokenKind → Bool) : Form := token true fits fun _ => done

/-- The tokens that are read next: behind white space, unless what comes has to be glued. -/
def front (glued : Bool) (ts : List Token) : List Token :=
  if glued then ts else ts.dropWhile (·.kind = .space)

/-- Compares tokens with a form: the tokens that match it and those behind them, or the place of the
first token that does not fit. -/
def compare : Form → List Token → Except Place (List Token × List Token)
  | done, ts => .ok ([], ts)
  | token glued fits behind, ts =>
    match front glued ts with
    | [] => .error .endOfInput
    | t :: ts =>
      if fits t.kind then do
        let (matched, rest) ← (behind t.kind).compare ts
        return (t :: matched, rest)
      else .error (.token t.position)

section Compare

variable {glued : Bool} {fits : TokenKind → Bool} {behind : TokenKind → Form} {ts us : List Token}
  {t : Token}

/-- There is no token left. -/
theorem compare_of_nil (h : front glued ts = []) :
    (token glued fits behind).compare ts = .error .endOfInput := by
  rw [compare, h]

/-- The next token fits. -/
theorem compare_of_fits (h : front glued ts = t :: us) (ht : fits t.kind = true) :
    (token glued fits behind).compare ts = do
      let (matched, rest) ← (behind t.kind).compare us
      return (t :: matched, rest) := by
  rw [compare, h]
  exact if_pos ht

/-- The next token does not fit. -/
theorem compare_of_misfit (h : front glued ts = t :: us) (ht : fits t.kind = false) :
    (token glued fits behind).compare ts = .error (.token t.position) := by
  rw [compare, h]
  exact if_neg (Bool.eq_false_iff.mp ht)

/-- Comparing with two forms, one behind the other. -/
theorem compare_append (f g : Form) (ts : List Token) :
    (f ++ g).compare ts = do
      let (matched, rest) ← f.compare ts
      let (more, rest) ← g.compare rest
      return (matched ++ more, rest) := by
  induction f generalizing ts with
  | done =>
    show g.compare ts = (g.compare ts >>= fun (more, rest) => .ok ([] ++ more, rest))
    cases g.compare ts <;> rfl
  | token glued fits behind ih =>
    show (token glued fits fun k => behind k ++ g).compare ts = _
    cases hts : front glued ts with
    | nil =>
      rw [compare_of_nil hts, compare_of_nil hts]
      rfl
    | cons t us =>
      cases ht : fits t.kind with
      | false =>
        rw [compare_of_misfit hts ht, compare_of_misfit hts ht]
        rfl
      | true =>
        rw [compare_of_fits hts ht, compare_of_fits hts ht, ih]
        cases (behind t.kind).compare us with
        | error place => rfl
        | ok answer =>
          obtain ⟨matched, rest⟩ := answer
          show (g.compare rest >>= _) >>= _ = g.compare rest >>= _
          cases g.compare rest <;> rfl

theorem mem_of_mem_front (h : t ∈ front glued ts) : t ∈ ts := by
  unfold front at h
  split at h
  · exact h
  · exact (List.dropWhile_subset _) h

/-- Comparing answers tokens that were there. -/
theorem mem_of_compare {f : Form} {matched rest : List Token}
    (h : f.compare ts = .ok (matched, rest)) : ∀ t ∈ matched ++ rest, t ∈ ts := by
  induction f generalizing ts matched with
  | done =>
    cases h
    exact fun t ht => ht
  | token glued fits behind ih =>
    cases hts : front glued ts with
    | nil =>
      rw [compare_of_nil hts] at h
      cases h
    | cons t us =>
      have hsub : ∀ u ∈ t :: us, u ∈ ts := by
        rw [← hts]
        exact fun u hu => mem_of_mem_front hu
      cases ht : fits t.kind with
      | false =>
        rw [compare_of_misfit hts ht] at h
        cases h
      | true =>
        rw [compare_of_fits hts ht] at h
        cases hrest : (behind t.kind).compare us with
        | error place =>
          rw [hrest] at h
          cases h
        | ok answer =>
          obtain ⟨matched', rest'⟩ := answer
          rw [hrest] at h
          cases h
          intro u hu
          rcases List.mem_cons.mp hu with rfl | hu
          · exact hsub _ List.mem_cons_self
          · exact hsub u (List.mem_cons_of_mem _ (ih t.kind hrest u hu))

end Compare

/-! ### The forms of statements -/

/-- The device that a name was declared for. -/
def device? (c : Circuit) (k : TokenKind) : Option Device := k.name?.bind fun w => c.device? w.id

/-- Whether a token is the output pin of a D-type. -/
def isOutputPin (k : TokenKind) : Bool := k.pin?.any fun w => w.text ∈ Pin.dtypeOutputWords

/-- Whether a token is an input pin of a device. -/
def isInputPin (d : Option Device) (k : TokenKind) : Bool :=
  d.any fun d => k.pin?.any fun w => d.hasInput w.id

/-- The `;` at the end. -/
def stop : Form := one (· = .semicolon)

/-- A declaration: a name, and for some kinds `=` and a number. -/
def declaration (kind : DeviceKind) : Form :=
  one (·.name?.isSome) ++
    ((if kind.qualifierForm? = none then done
      else one (· = .equal) ++ one (·.number?.isSome)) ++ stop)

/-- An output: a declared name, and behind that of a D-type a dot and a pin. -/
def output (c : Circuit) : Form :=
  token false (fun k => (device? c k).isSome) fun k =>
    if (device? c k).map Device.kind = some .dtype then glued (· = .dot) ++ glued isOutputPin
    else done

/-- An input: a declared name, a dot, and an input pin of the device. -/
def input (c : Circuit) : Form :=
  token false (fun k => (device? c k).isSome) fun k =>
    glued (· = .dot) ++ glued (isInputPin (device? c k))

end Form

/-- The form of the statements of a keyword, behind the keyword. -/
def Keyword.form (c : Circuit) : Keyword → Form
  | .device kind => .declaration kind
  | .connect => .output c ++ (.one (· = .arrow) ++ (.input c ++ .stop))
  | .monitor => .output c ++ .stop

/-! ## The statements that tokens spell -/

/-- The tokens of an output. -/
inductive OutputMention.Spelled : List Token → OutputMention → Prop
  | plain {w : Word} {p : Position} : Spelled [⟨.name w, p⟩] ⟨w, none, p⟩
  | pin {w v : Word} {p q r : Position} :
      Spelled [⟨.name w, p⟩, ⟨.dot, q⟩, ⟨.pin v, r⟩] ⟨w, some v, r⟩

/-- The tokens of a statement behind its keyword. -/
inductive Statement.Spelled : Keyword → List Token → Statement → Prop
  | plain {kind : DeviceKind} {w : Word} {p q : Position} :
      Spelled (.device kind) [⟨.name w, p⟩, ⟨.semicolon, q⟩] (.declaration ⟨kind, w, p, none⟩)
  | qualified {kind : DeviceKind} {form : QualifierForm} {w digits : Word} {p q r u : Position}
      (takes : kind.qualifierForm? = some form) :
      Spelled (.device kind) [⟨.name w, p⟩, ⟨.equal, q⟩, ⟨.number digits, r⟩, ⟨.semicolon, u⟩]
        (.declaration ⟨kind, w, p, some (form.ofNumeral digits.text, r)⟩)
  | connection {ts : List Token} {m : OutputMention} {w v : Word} {p q r u o : Position}
      (output : m.Spelled ts) :
      Spelled .connect
        (ts ++ [⟨.arrow, p⟩, ⟨.name w, q⟩, ⟨.dot, r⟩, ⟨.pin v, u⟩, ⟨.semicolon, o⟩])
        (.connection ⟨m, w, v, u⟩)
  | monitor {ts : List Token} {m : OutputMention} {p : Position} (output : m.Spelled ts) :
      Spelled .monitor (ts ++ [⟨.semicolon, p⟩]) (.monitor m)

/-- What a mentioned output needs to be one of a circuit: a D-type has a pin, any other device has
none. -/
def OutputMention.Fits (c : Circuit) (m : OutputMention) : Prop :=
  ∃ d, c.device? m.device.id = some d ∧
    if d.kind = .dtype then ∃ v, m.pin = some v ∧ c.pins.dtypeOutputs.contains v.id = true
    else m.pin = none

/-- What the form of a statement says of the devices that it names. -/
inductive Statement.Fits (c : Circuit) : Statement → Prop
  | declaration {s : Declaration} (qualifier : s.qualifier.isSome = s.kind.qualifierForm?.isSome) :
      Fits c (.declaration s)
  | connection {s : Connection} {d : Device} (output : s.source.Fits c)
      (device : c.device? s.device.id = some d) (input : d.hasInput s.pin.id = true) :
      Fits c (.connection s)
  | monitor {m : OutputMention} (output : m.Fits c) : Fits c (.monitor m)

end Netlist
