import Netlist.Proofs.Blame
import Netlist.Proofs.Closing
import Netlist.Proofs.Wording

/-!
# Branches that nothing takes

Some messages are written for branches that are there for safety only: a keyword without an entry
in the vocabulary, a qualifier for a kind that takes none, a connection or a monitor that the
circuit refuses although the statement was read over the same circuit. Every one of them is shut by
another invariant: the tokens against the vocabulary, the form of a statement against the kind, the
devices that it names against the circuit. In a session that can be reached all of them hold,
whatever identifiers devices were declared under.

## Results

* `Circuit.connect_error`, `Circuit.monitor_error`: what is refused though all that it names exists.
* `TokenStream.resolved_of_segment?`: a token stands in the vocabulary for what it was read as.
* `Problem.not_prefix_of_live`: no live problem has the message of a branch that nothing takes.
* `Reading.live_of_take`: **the fault of a segment is live.**
-/

namespace Netlist

/-! ## Live problems -/

/-- The problems that are ever reported: the others are those of branches that nothing takes. -/
def Problem.Live : Problem → Prop
  | .invalidQualifier none | .cannotConnect _ | .notAnOutput => False
  | _ => True

/-- What the messages of the branches open with that nothing takes. -/
def defensiveTexts : List String :=
  ["Unknown keyword", "Invalid qualifier", "Cannot connect: ",
    "The pin to be monitored is not an output of this device"]

theorem Problem.not_comparable_of_live {p : Problem} (hp : p.Live) {text : String}
    (htext : text ∈ defensiveTexts) : ¬Comparable text p.opening := by
  simp only [defensiveTexts, List.mem_cons, List.not_mem_nil, or_false] at htext
  cases p with
  | cannotConnect reason => exact hp.elim
  | notAnOutput => exact hp.elim
  | invalidQualifier form? =>
    cases form? with
    | none => exact hp.elim
    | some form =>
      cases form <;> rcases htext with rfl | rfl | rfl | rfl <;>
        exact not_comparable_ofList (by decide)
  | misplacedSection fault =>
    cases fault <;> rcases htext with rfl | rfl | rfl | rfl <;>
      exact not_comparable_ofList (by decide)
  | outsideSection k =>
    cases k <;> rcases htext with rfl | rfl | rfl | rfl <;>
      exact not_comparable_ofList (by decide)
  | numberExpected form =>
    cases form <;> rcases htext with rfl | rfl | rfl | rfl <;>
      exact not_comparable_ofList (by decide)
  | _ =>
    rcases htext with rfl | rfl | rfl | rfl <;> exact not_comparable_ofList (by decide)

/-- **No live problem has the message of a branch that nothing takes.** -/
theorem Problem.not_prefix_of_live {p : Problem} (hp : p.Live) {text : String}
    (htext : text ∈ defensiveTexts) : ¬text.toList <+: p.message.toList :=
  fun h => not_comparable_of_live hp htext (comparable_opening h)

theorem Problem.Loose.live {p : Problem} (h : p.Loose) : p.Live := by
  cases h <;> trivial

theorem Problem.Glued.live {p : Problem} {ks : List TokenKind} (h : p.Glued ks) : p.Live := by
  cases h <;> trivial

theorem Draft.live_of_mem_omissions {d : Draft} {names : NameTable} {faultless : Bool}
    {p : Problem} (h : p ∈ d.omissions names faultless) : p.Live := by
  rcases mem_omissions h with ⟨s, rfl⟩ | rfl | rfl <;> trivial

/-! ## Refusals by a circuit -/

namespace Circuit

variable {c : Circuit} {t : NameTable}

theorem declare_error {id : NameId} {kind : DeviceKind} {qualifier : Option Qualifier}
    (h : c.declare id kind qualifier = .error .invalidQualifier) :
    kind.settingFor qualifier = none := by
  unfold declare at h
  split at h
  · cases h
  · split at h
    · assumption
    · cases h

/-- Between an output and an input that are there, only a driver is in the way. -/
theorem connect_error {source : Output} {sink : Input} {driver driven : Device} {e : ConnectError}
    (hdriver : c.device? source.device = some driver)
    (houtput : driver.hasOutput source.pin = true)
    (hdriven : c.device? sink.device = some driven) (hinput : driven.hasInput sink.pin = true)
    (h : c.connect source sink = .error e) : e = .inputAlreadyConnected := by
  obtain ⟨slot, hslot⟩ := SortedMap.contains_iff.mp hinput
  cases slot with
  | none =>
    have hok := connect_eq_ok_iff.mpr ⟨driver, driven, hdriver, houtput, hdriven, hslot, rfl⟩
    rw [hok] at h
    cases h
  | some o =>
    rw [connect_of_driven hdriver houtput hdriven hslot] at h
    exact (Except.error.inj h).symm

/-- An output that is there is refused only if it is monitored. -/
theorem monitor_error {o : Output} {device : Device} {e : MonitorError}
    (hdevice : c.device? o.device = some device) (houtput : device.hasOutput o.pin = true)
    (h : c.monitor o = .error e) : e = .alreadyMonitored := by
  cases hmonitored : c.monitors.contains o with
  | false =>
    rw [monitor_eq_ok_iff.mpr ⟨device, hdevice, houtput, hmonitored, rfl⟩] at h
    cases h
  | true =>
    rw [monitor_of_monitored hdevice houtput hmonitored] at h
    exact (Except.error.inj h).symm

end Circuit

/-- **A statement that fits its form is refused for a live problem.** -/
theorem Draft.RefusedBy.live {t : NameTable} {d : Draft} {st : Statement} {fault : Fault}
    (h : d.RefusedBy st fault) (hst : st.Fits d.circuit) (hover : d.circuit.Over t)
    (hconsistent : d.circuit.Consistent t) : fault.problem.Live := by
  cases h with
  | @declaration s e answer =>
    cases e with
    | nameAlreadyUsed => trivial
    | invalidQualifier =>
      cases hst with
      | declaration hqualifier =>
        have hsome := DeviceKind.isSome_of_settingFor_eq_none (Circuit.declare_error answer)
          (by rw [Option.isSome_map, hqualifier])
        rw [Option.isSome_map, hqualifier] at hsome
        obtain ⟨form, hform⟩ := Option.isSome_iff_exists.mp hsome
        show (Problem.invalidQualifier s.kind.qualifierForm?).Live
        rw [hform]
        trivial
  | connection answer =>
    cases hst with
    | connection houtput hdevice hinput =>
      obtain ⟨driver, hdriver, hout⟩ := houtput.hasOutput hover hconsistent
      obtain rfl := Circuit.connect_error hdriver hout hdevice hinput answer
      trivial
  | monitor answer =>
    cases hst with
    | monitor houtput =>
      obtain ⟨device, hdevice, hout⟩ := houtput.hasOutput hover hconsistent
      obtain rfl := Circuit.monitor_error hdevice hout answer
      trivial

/-! ## Tokens of a segment -/

namespace Vocabulary

variable {v : Vocabulary} {id : NameId}

theorem section?_of_classify {s : Section} (h : v.classify id = .heading s) :
    v.section? id = some s := by
  unfold classify at h
  cases hs : v.section? id with
  | some s' => simpa [hs] using h
  | none =>
    cases hk : v.keyword? id <;> simp only [hs, hk] at h
    · split at h <;> cases h
    · cases h

theorem keyword?_of_classify {k : Keyword} (h : v.classify id = .keyword k) :
    v.keyword? id = some k := by
  unfold classify at h
  cases hs : v.section? id with
  | some s' => simp [hs] at h
  | none =>
    cases hk : v.keyword? id with
    | some k' => simpa [hs, hk] using h
    | none =>
      simp only [hs, hk] at h
      split at h <;> cases h

end Vocabulary

/-- A token stands for its word: the table has the word under its identifier, and the vocabulary
has there what the token was read as. -/
structure Token.Resolved (v : Vocabulary) (t : NameTable) (k : Token) : Prop where
  word : ∀ w, k.kind.word? = some w → t.text? w.id = some w.text
  keyword : ∀ i w, k.kind = .keyword i w → v.keyword? w.id = some i
  heading : ∀ s w, k.kind = .heading s w → v.section? w.id = some s

/-- A lexeme is read as a token that stands for its word. -/
theorem Lexeme.resolved_kindOver {v : Vocabulary} {t u : NameTable} {l : Lexeme} {p : Position}
    (hknows : t.Knows [l]) (hle : t ≤ u) (hclass : ∀ w, v.classify (u.idOf w) = .ofText w) :
    Token.Resolved v t ⟨l.kindOver u, p⟩ where
  word w hw := by
    obtain ⟨s, rfl, hl⟩ := word?_kindOver_iff.mp hw
    have hs : s ∈ t.names := by
      rcases hl with rfl | rfl
      · exact hknows s (by simp [interned, String.ofList_toList])
      · exact hknows s (by simp [interned, String.ofList_toList])
    show t.text? (u.idOf s) = some s
    rw [NameTable.idOf_of_le hle hs, NameTable.text?_idOf hs]
  keyword i w hk := by
    have hk : l.kindOver u = .keyword i w := hk
    obtain rfl := eq_word_of_kindOver_keyword hk
    have hword : WordClass.ofText i.word = .keyword i := Vocabulary.ofText_eq_keyword_iff.mpr rfl
    rw [kindOver_word, hword] at hk
    cases hk
    exact Vocabulary.keyword?_of_classify ((hclass i.word).trans hword)
  heading s w hk := by
    have hk : l.kindOver u = .heading s w := hk
    obtain ⟨text, rfl, rfl | rfl⟩ := word?_kindOver_iff.mp (show (l.kindOver u).word? = some w by
      rw [hk]
      rfl)
    · rw [kindOver_word] at hk
      cases hc : WordClass.ofText text with
      | heading s' =>
        rw [hc] at hk
        cases hk
        exact Vocabulary.section?_of_classify ((hclass text).trans hc)
      | _ => rw [hc] at hk; cases hk
    · cases hk

/-- **The tokens of a segment stand for their words**, in the table behind the segment. -/
theorem TokenStream.resolved_of_segment? {s s' : TokenStream} {g : Segment} (h : s.Sound)
    (hg : s.segment? = some (g, s')) {k : Token} (hk : k ∈ g.head :: g.tail) :
    k.Resolved s.vocabulary s'.names := by
  have hle : s'.names ≤ s.allNames := by
    rw [← (behind_of_segment? h hg).2.1]
    exact s'.names_le_allNames
  rw [segment?_eq h NameTable.le_rfl] at hg
  obtain ⟨⟨c, rest⟩, hc, he⟩ := Option.map_eq_some_iff.mp hg
  obtain ⟨rfl, rfl⟩ := Prod.mk.inj he
  obtain ⟨as, l, bs, hl, rfl⟩ := Lexeme.exists_of_mem_tokensOver (Chunk.mem_segmentOver hk)
  -- The segment is read off the table of all names; the words of its lexemes are in `s'` by then.
  refine Lexeme.resolved_kindOver (fun w hw => ?_) hle (classify_eq h s.names_le_allNames)
  have hmem : l ∈ c.lexemes :=
    List.mem_append_right _ (hl ▸ List.mem_append_right _ List.mem_cons_self)
  rw [List.flatMap_singleton] at hw
  exact NameTable.mem_internAll_iff.mpr (.inr (List.mem_flatMap.mpr ⟨l, hmem, hw⟩))

/-- Its pins are told by their texts. -/
theorem Circuit.Over.apt_of_segment? {c : Circuit} {s s' : TokenStream} {g : Segment}
    (hover : c.Over s.names) (h : s.Sound) (hg : s.segment? = some (g, s')) :
    ∀ k ∈ g.tail, k.Apt c := by
  intro k hk
  rw [TokenStream.segment?_eq h NameTable.le_rfl] at hg
  obtain ⟨⟨c, rest⟩, hc, he⟩ := Option.map_eq_some_iff.mp hg
  obtain ⟨rfl, rfl⟩ := Prod.mk.inj he
  exact (hover.of_le s.names_le_allNames).apt
    (Chunk.mem_segmentOver (List.mem_cons_of_mem _ hk))

/-! ## Faults of a segment -/

/-- A statement that is read fits its form, and is spelled by tokens that were read. -/
theorem Statement.spelled_of_read {c : Circuit} {k : Keyword} {ts : List Token} {st : Statement}
    (hapt : ∀ t ∈ ts, t.Apt c) (h : ((read c k).runOn ts).1 = .ok st) :
    st.Fits c ∧ ∃ matched, st.Spelled k matched ∧ ∀ t ∈ matched, t ∈ ts := by
  have hfollows := follows_read c k ts hapt
  cases hcompare : (k.form c).compare ts with
  | error place =>
    rw [hcompare] at hfollows
    generalize (read c k).runOn ts = answer at h hfollows
    cases hfollows
    cases h
  | ok matched =>
    obtain ⟨matched, rest⟩ := matched
    rw [hcompare] at hfollows
    generalize (read c k).runOn ts = answer at h hfollows
    cases hfollows with
    | read hsaid =>
      cases h
      exact ⟨hsaid.2, matched, hsaid.1, fun t ht =>
        Form.mem_of_compare hcompare t (List.mem_append_left _ ht)⟩

namespace Reading

variable {r : Reading} {g : Segment} {stream : TokenStream} {fault : Fault}

/-- **The fault of a segment is live.** -/
theorem live_of_take (h : r.stream.Sound) (hover : r.circuit.Over r.names)
    (hconsistent : r.circuit.Consistent r.names) (hg : r.stream.segment? = some (g, stream))
    (hfault : (r.draft.take g).1 = some fault) : fault.problem.Live := by
  cases Draft.faulty_take hfault with
  | stray => trivial
  | bare => trivial
  | misplaced => trivial
  | outside => trivial
  | unread _ refusal =>
    cases refusal with
    | loose hloose => exact hloose.live
    | glued _ _ hglued => exact hglued.live
  | refused _ hread refusal =>
    have hfits := (Statement.spelled_of_read (hover.apt_of_segment? h hg) hread).1
    exact refusal.live hfits hover hconsistent

/-- A heading is reported, or its section is entered. -/
theorem reported_or_entered {s : Section} {w : Word} (hhead : g.head.kind = .heading s w) :
    r.log.count < (r.takeSegment g stream).log.count ∨
      (r.takeSegment g stream).draft.sections.active = some s := by
  rcases r.draft.take_heading hhead with ⟨-, htake⟩ | ⟨fault, htake⟩
  · right
    show (r.draft.take g).2.sections.active = some s
    rw [htake]
    unfold Draft.enter SectionHistory.enter
    cases r.draft.sections.fault? s <;> rfl
  · left
    rw [log_takeSegment, htake, DiagnosticLog.count_reportAll]
    exact Nat.lt_succ_self _

end Reading

end Netlist
