import Netlist.Proofs.Unreachable
import Netlist.Proofs.Words

/-!
# Names behind identifiers

A circuit and the devices that nothing uses hold identifiers; a message shows names. A device that a
statement declares has the name that stands in the statement, so where all devices come from
statements, every identifier that is held has its name in the table. The names of a faulty statement
stand among its tokens. So no message of a check is short of a name, and as names are made of
letters and digits, none has a question mark.

## Results

* `Reading.told_of_take`: the names in the message of a fault are in the table.
* `Reading.Registered.takeSegment`: a segment keeps the names of what is held.
* `Draft.Named.told_omissions`: the names in the messages at the end of the input are in the table.
* `Reading.isAlphanum_ofCheck`: the names of a check have letters and digits only.
* `Session.guarded_runAll`: **branches that are there for safety only are never taken.**
-/

namespace Netlist

open Draft (nameText)

/-! ## Names in the message of a fault -/

/-- The name of a declaration stands among its tokens. -/
theorem Statement.Spelled.exists_name {k : Keyword} {ts : List Token} {s : Declaration}
    (h : Spelled k ts (.declaration s)) : ∃ t ∈ ts, t.kind = .name s.name := by
  cases h with
  | plain => exact ⟨_, List.mem_cons_self, rfl⟩
  | qualified => exact ⟨_, List.mem_cons_self, rfl⟩

/-- The names of a refused statement stand among its tokens. -/
theorem Draft.RefusedBy.told {d : Draft} {st : Statement} {fault : Fault} {k : Keyword}
    {ts : List Token} (h : d.RefusedBy st fault) (hst : st.Spelled k ts) :
    ∀ name ∈ fault.problem.names, ∃ t ∈ ts, t.kind.Tells name := by
  intro name hname
  cases h with
  | @declaration s e answer =>
    cases e with
    | nameAlreadyUsed =>
      obtain ⟨t, ht, hkind⟩ := hst.exists_name
      exact ⟨t, ht, s.name, by rw [hkind]; rfl, (List.mem_singleton.mp hname).symm⟩
    | invalidQualifier => cases hname
  | @connection s e answer =>
    cases hst with
    | @connection _ m w v p q r u o _ =>
      cases e with
      | inputAlreadyConnected =>
        rcases List.mem_pair.mp hname with rfl | rfl
        · exact ⟨⟨.name w, q⟩, by simp, w, rfl, rfl⟩
        · exact ⟨⟨.pin v, u⟩, by simp, v, rfl, rfl⟩
      | _ => cases hname
  | @monitor m e answer => cases e <;> cases hname

/-- A name that a token of a segment tells is in the table behind it. -/
theorem Token.Resolved.mem_names {v : Vocabulary} {t : NameTable} {k : Token} {name : String}
    (h : k.Resolved v t) (htells : k.kind.Tells name) : name ∈ t.names := by
  obtain ⟨w, hw, rfl⟩ := htells
  exact List.mem_of_getElem? (h.word w hw)

/-- **The names in the message of a fault are in the table.** -/
theorem Reading.told_of_take {r : Reading} {g : Segment} {stream : TokenStream} {fault : Fault}
    (h : r.stream.Sound) (hover : r.circuit.Over r.names)
    (hg : r.stream.segment? = some (g, stream)) (hfault : (r.draft.take g).1 = some fault) :
    ∀ name ∈ fault.problem.names, name ∈ stream.names.names := by
  have htold {name : String} (hname : ∃ t ∈ g.tail, t.kind.Tells name) :
      name ∈ stream.names.names := by
    obtain ⟨t, ht, htells⟩ := hname
    exact (TokenStream.resolved_of_segment? h hg (List.mem_cons_of_mem _ ht)).mem_names htells
  cases Draft.faulty_take hfault with
  | stray => exact nofun
  | bare => exact nofun
  | misplaced => exact nofun
  | outside => exact nofun
  | unread _ refusal => exact fun name hname => htold (refusal.told name hname)
  | refused _ hread refusal =>
    obtain ⟨-, matched, hspelled, hmatched⟩ :=
      Statement.spelled_of_read (hover.apt_of_segment? h hg) hread
    intro name hname
    obtain ⟨t, ht, htells⟩ := refusal.told hspelled name hname
    exact htold ⟨t, hmatched t ht, htells⟩

/-! ## What a draft holds -/

/-- A table has a name for an identifier. -/
def NameTable.Has (t : NameTable) (id : NameId) : Prop := ∃ name, t.text? id = some name

theorem NameTable.Has.of_le {t t' : NameTable} {id : NameId} (h : t.Has id) (hle : t ≤ t') :
    t'.Has id := by
  obtain ⟨name, hname⟩ := h
  exact ⟨name, text?_of_le hle hname⟩

/-- The text that is shown for an identifier is its name. -/
theorem NameTable.Has.nameText_mem {t : NameTable} {id : NameId} (h : t.Has id) :
    nameText t id ∈ t.names := by
  obtain ⟨name, hname⟩ := h
  unfold nameText
  rw [hname]
  exact List.mem_of_getElem? hname

/-- Both parts of an output have names. -/
def Output.Named (t : NameTable) (o : Output) : Prop := t.Has o.device ∧ ∀ pin ∈ o.pin, t.Has pin

/-- All identifiers that a draft holds have names. -/
structure Draft.Named (t : NameTable) (d : Draft) : Prop where
  devices : ∀ {id e}, d.circuit.device? id = some e → t.Has id ∧ t.Has e.id
  inputs : ∀ {id e pin}, d.circuit.device? id = some e → e.hasInput pin = true → t.Has pin
  outputs : ∀ {id e pin}, d.circuit.device? id = some e → e.hasOutput (some pin) = true → t.Has pin
  drivers : ∀ {id e pin o}, d.circuit.device? id = some e → e.inputs.get? pin = some (some o) →
    o.Named t
  monitors : ∀ {o}, d.circuit.monitors.contains o = true → o.Named t
  unused : ∀ {id}, d.unused.contains id = true → t.Has id

namespace Device

variable {t : NameTable} {id pin : NameId} {d : Device}

theorem MadeOver.has_input (h : d.MadeOver t id) (hpin : d.hasInput pin = true) : t.Has pin := by
  have hmem := List.mem_map_of_mem (f := t.text?) (SortedMap.mem_keys_iff.mpr hpin)
  obtain ⟨name, -, hname⟩ := List.mem_map.mp (h.inputs.subset hmem)
  exact ⟨name, hname.symm⟩

theorem MadeOver.has_output (h : d.MadeOver t id) (hpin : d.hasOutput (some pin) = true) :
    t.Has pin := by
  have hmem := List.mem_map_of_mem (f := Option.map t.text?) (List.contains_iff_mem.mp hpin)
  rw [h.outputs] at hmem
  obtain ⟨o, -, ho⟩ := List.mem_map.mp hmem
  obtain ⟨name, rfl, hname⟩ := Option.map_eq_some_iff.mp ho
  exact ⟨name, hname.symm⟩

end Device

/-- In a consistent circuit, names are missing only where a device has none. -/
theorem Draft.named_of_devices {t : NameTable} {d : Draft} (h : d.circuit.Consistent t)
    (hdevices : ∀ {id e}, d.circuit.device? id = some e → t.Has id)
    (hunused : ∀ {id}, d.unused.contains id = true → ∃ e, d.circuit.device? id = some e) :
    d.Named t := by
  have houtput {o : Output} (ho : ∃ e, d.circuit.device? o.device = some e ∧
      e.hasOutput o.pin = true) : o.Named t := by
    obtain ⟨e, he, hpin⟩ := ho
    refine ⟨hdevices he, fun pin hp => ?_⟩
    rw [Option.mem_def.mp hp] at hpin
    exact (h.devices he).has_output hpin
  exact {
    devices := fun he => ⟨hdevices he, by rw [(h.devices he).own]; exact hdevices he⟩
    inputs := fun he => (h.devices he).has_input
    outputs := fun he => (h.devices he).has_output
    drivers := fun he ho => houtput (h.drivers he ho)
    monitors := fun ho => houtput (h.monitors ho)
    unused := fun hid => by
      obtain ⟨e, he⟩ := hunused hid
      exact hdevices he }

/-- **The names in the messages at the end of the input are in the table.** -/
theorem Draft.Named.told_omissions {t : NameTable} {d : Draft} {faultless : Bool}
    {problem : Problem} (h : d.Named t) (hproblem : problem ∈ d.omissions t faultless) :
    ∀ name ∈ problem.names, name ∈ t.names := by
  rcases Draft.mem_omissions hproblem with ⟨s, rfl⟩ | rfl | rfl
  · exact nofun
  · intro name hname
    obtain ⟨texts, htexts, hname⟩ := List.mem_flatMap.mp hname
    obtain ⟨i, hi, rfl⟩ := List.mem_map.mp htexts
    obtain ⟨e, he, hi⟩ := List.mem_flatMap.mp hi
    obtain ⟨pin, hpin, rfl⟩ := List.mem_map.mp hi
    obtain ⟨id, hid⟩ := SortedMap.mem_values_iff.mp he
    have hinput : e.hasInput pin = true :=
      SortedMap.contains_iff.mpr ⟨_, Device.mem_undriven_iff.mp hpin⟩
    rcases List.mem_pair.mp hname with rfl | rfl
    · exact (h.devices hid).2.nameText_mem
    · exact (h.inputs hid hinput).nameText_mem
  · intro name hname
    obtain ⟨id, hid, rfl⟩ := List.mem_map.mp hname
    exact (h.unused (SortedMap.mem_keys_iff.mp hid)).nameText_mem

/-! ## Along a reading -/

/-- What an accepted statement declares. -/
theorem Draft.declared_of_apply {d d' : Draft} {st : Statement} (h : d.apply st = .ok d')
    {id : NameId} (hid : ∃ e, d'.circuit.device? id = some e) :
    (∃ e, d.circuit.device? id = some e) ∨ ∃ s, st = .declaration s ∧ id = s.name.id := by
  obtain ⟨e, he⟩ := hid
  cases acceptedBy_of_apply h with
  | @declaration s _ hc =>
    obtain ⟨-, setting, -, rfl⟩ := Circuit.declare_eq_ok_iff.mp hc
    replace he : (d.circuit.devices.insert s.name.id _).get? id = some e := he
    rcases SortedMap.get?_insert_cases he with ⟨hid, -⟩ | he
    · exact .inr ⟨s, rfl, hid⟩
    · exact .inl ⟨e, he⟩
  | connection hc =>
    obtain ⟨-, driven, -, -, -, -, rfl⟩ := Circuit.connect_eq_ok_iff.mp hc
    refine .inl (SortedMap.contains_iff.mp ?_)
    rw [← SortedMap.contains_modify]
    exact SortedMap.contains_iff.mpr ⟨e, he⟩
  | monitor hc =>
    obtain ⟨-, -, -, -, rfl⟩ := Circuit.monitor_eq_ok_iff.mp hc
    exact .inl ⟨e, he⟩

namespace Reading

/-- A reading over a table `t` and a circuit `c`, in which every device has a name. -/
structure Registered (t : NameTable) (c : Circuit) (r : Reading) : Prop where
  sound : r.stream.Sound
  names : t ≤ r.names
  tracks : r.draft.Tracks t c
  devices : ∀ {id e}, r.circuit.device? id = some e → r.names.Has id

variable {t : NameTable} {c : Circuit} {r last : Reading} {g : Segment} {gs : List Segment}
  {stream : TokenStream}

/-- A segment keeps the names of devices, and declares devices that have one. -/
theorem Registered.takeSegment (h : r.Registered t c)
    (hg : r.stream.segment? = some (g, stream)) : (r.takeSegment g stream).Registered t c where
  sound := (TokenStream.behind_of_segment? h.sound hg).1
  names := NameTable.le_trans h.names (TokenStream.le_names_segment? hg)
  tracks := h.tracks.take g
  devices {id e} he := by
    have hle : r.names ≤ stream.names := TokenStream.le_names_segment? hg
    have he : (r.draft.take g).2.circuit.device? id = some e := he
    rcases r.draft.take_cases g with
      ⟨fault, ht⟩ | ⟨s, w, -, ht⟩ | ⟨k, w, st, d', -, -, hread, ha, ht⟩
    · rw [ht] at he
      exact (h.devices he).of_le hle
    · rw [ht] at he
      exact (h.devices he).of_le hle
    · rw [ht] at he
      -- Only a declaration makes a device, and its name is one of the tokens.
      rcases Draft.declared_of_apply ha ⟨e, he⟩ with ⟨e', he'⟩ | ⟨s, rfl, rfl⟩
      · exact (h.devices he').of_le hle
      · have hover : r.circuit.Over r.names := h.tracks.known.of_le h.names
        obtain ⟨-, matched, hspelled, hmatched⟩ :=
          Statement.spelled_of_read (hover.apt_of_segment? h.sound hg) hread
        obtain ⟨u, hu, hkind⟩ := hspelled.exists_name
        exact ⟨s.name.text, (TokenStream.resolved_of_segment? h.sound hg
          (List.mem_cons_of_mem _ (hmatched u hu))).word s.name (by rw [hkind]; rfl)⟩

theorem Registered.passes (h : r.Registered t c) (hlast : r.Passes gs last) :
    last.Registered t c := by
  induction hlast with
  | refl => exact h
  | segment next _ _ ih => exact ih (h.takeSegment next)

/-- **All identifiers that are held have names.** -/
theorem Registered.named (h : r.Registered t c) : r.draft.Named r.names :=
  Draft.named_of_devices (h.tracks.consistent.of_le h.names) h.devices fun hid =>
    ((h.tracks.unused _).mp hid).2.1

theorem Registered.readOn (h : r.Registered t c) : r.readOn.2.Registered t c :=
  r.readOn_induction (P := Registered t c) (fun _ _ _ hg h => h.takeSegment hg)
    (fun _ h => ⟨h.sound, h.names, h.tracks, h.devices⟩)
    (fun _ h => ⟨h.sound, h.names, h.tracks, h.devices⟩) h

theorem Passes.allNames_eq (h : r.Passes gs last) (hs : r.stream.Sound) :
    last.stream.allNames = r.stream.allNames := by
  induction h with
  | refl => rfl
  | segment next _ _ ih =>
    obtain ⟨hsound, hnames, -⟩ := TokenStream.behind_of_segment? hs next
    exact (ih hsound).trans hnames

/-- **The names in a message are in the table of all names.** -/
theorem Registered.told_of_reports (h : r.Registered t c) {d : Diagnostic} (hd : r.Reports d) :
    ∃ problem : Problem, d.message = problem.message ∧
      ∀ name ∈ problem.names, name ∈ r.stream.allNames.names := by
  cases hd with
  | @fault gs mid g stream fault passes next faulty =>
    have hmid := h.passes passes
    have hover : mid.circuit.Over mid.names := hmid.tracks.known.of_le hmid.names
    refine ⟨fault.problem, rfl, fun name hname => ?_⟩
    rw [← passes.allNames_eq h.sound, ← (TokenStream.behind_of_segment? hmid.sound next).2.1]
    exact NameTable.mem_of_le stream.names_le_allNames
      (told_of_take hmid.sound hover next faulty name hname)
  | @omission gs last problem number ends missing =>
    refine ⟨problem, rfl, fun name hname => ?_⟩
    rw [← ends.passes.allNames_eq h.sound]
    exact NameTable.mem_of_le last.stream.names_le_allNames
      ((h.passes ends.passes).named.told_omissions missing name hname)

end Reading

/-- A reading starts with the names of the devices of its session. -/
theorem Session.Consistent.registered_read {s : Session} (h : s.Consistent)
    (hdevices : ∀ {id e}, s.circuit.device? id = some e → s.names.Has id) (source : String)
    (limit : Option Nat) : (s.read source limit).Registered s.names s.circuit where
  sound := TokenStream.sound_ofLexemes _ _
  names := (s.grown_read source limit).names
  tracks := .start h.known h.circuit
  devices he := (hdevices he).of_le (s.grown_read source limit).names

/-! ## The characters of names -/

open Problem (MadeOf Plain)

/-- Words and numerals have letters and digits only. -/
theorem Lexeme.isAlphanum_of_mem_first {c : Char} {cs : List Char} {name : String}
    (h : name ∈ (first c cs).interned) : ∀ d ∈ name.toList, d.isAlphanum = true := by
  intro d hd
  unfold first at h
  split at h
  · cases h
  · split at h
    · rename_i hletter
      rw [List.mem_singleton.mp h, String.toList_ofList] at hd
      rcases List.mem_cons.mp hd with rfl | hd
      · rw [Char.isAlphanum, hletter, Bool.true_or]
      · exact List.mem_takeWhile_imp hd
    · split at h
      · rename_i hdigit
        rw [List.mem_singleton.mp h, String.toList_ofList] at hd
        have hd : d.isDigit = true := by
          rcases List.mem_cons.mp hd with rfl | hd
          · exact hdigit
          · exact List.mem_takeWhile_imp hd
        rw [Char.isAlphanum, hd, Bool.or_true]
      · split at h <;> cases h

theorem Lexeme.isAlphanum_of_mem_ofText {cs : List Char} {l : Lexeme} (hl : l ∈ ofText cs)
    {name : String} (hname : name ∈ l.interned) : MadeOf (Char.isAlphanum · = true) name := by
  fun_induction ofText cs with
  | case1 => cases hl
  | case2 c cs ih =>
    rcases List.mem_cons.mp hl with rfl | hl
    · exact isAlphanum_of_mem_first hname
    · exact ih hl

theorem isAlphanum_of_reserved :
    ∀ name ∈ reservedNames, MadeOf (Char.isAlphanum · = true) name := by
  have hall : (reservedNames.all (·.toList.all Char.isAlphanum)) = true := by decide +kernel
  intro name hname c hc
  exact List.all_eq_true.mp (List.all_eq_true.mp hall name hname) c hc

namespace Reading

variable (source : String) (limit : Option Nat)

/-- **The names of a check have letters and digits only.** -/
theorem isAlphanum_ofCheck : ∀ name ∈ (ofCheck source limit).stream.allNames.names,
    MadeOf (Char.isAlphanum · = true) name := by
  have hcases (r : Reading) {name : String} (h : name ∈ r.stream.allNames.names) :
      name ∈ r.names.names ∨ name ∈ r.stream.pending.flatMap Lexeme.interned :=
    NameTable.mem_internAll_iff.mp h
  intro name hname
  rcases hcases _ hname with hname | hname
  · rw [names_ofCheck] at hname
    rcases NameTable.mem_internAll_iff.mp hname with hname | hname
    · cases hname
    · exact isAlphanum_of_reserved name hname
  · obtain ⟨l, hl, hname⟩ := List.mem_flatMap.mp hname
    rw [pending_ofCheck] at hl
    exact Lexeme.isAlphanum_of_mem_ofText hl hname

/-- No name of a check has a question mark. -/
theorem plain_ofCheck : ∀ name ∈ (ofCheck source limit).stream.allNames.names, Plain name :=
  fun name hname hmark => absurd (isAlphanum_ofCheck source limit name hname '?' hmark) (by decide)

theorem registered_ofCheck :
    (ofCheck source limit).Registered (Pins.intern .empty).2 (.empty (Pins.intern .empty).1) := by
  let s : Session := ⟨(Pins.intern .empty).2, .empty (Pins.intern .empty).1⟩
  have hs : s.Consistent := ⟨⟨Pins.intern_fst NameTable.le_rfl, Pins.words_subset_intern .empty⟩,
    Circuit.consistent_empty _ _⟩
  exact hs.registered_read (fun {id e} he => by cases he) source limit

end Reading

/-! ## Branches that nothing takes -/

/-- A reading does not take the branches that are there for safety only. -/
structure Reading.Guarded (r : Reading) : Prop where
  /-- No message is that of such a branch. -/
  silent : ∀ d ∈ r.parse.2.log.diagnostics, ∀ text ∈ defensiveTexts,
    ¬text.toList <+: d.message.toList
  /-- Every keyword and every heading stands in the vocabulary as what it was read as. -/
  tokens : ∀ {gs mid g stream}, r.Passes gs mid → mid.stream.segment? = some (g, stream) →
    ∀ k ∈ g.head :: g.tail, k.Resolved mid.stream.vocabulary stream.names
  /-- No heading is dropped: it is reported, or its section is entered. -/
  headings : ∀ {gs mid g stream s w}, r.Passes gs mid →
    mid.stream.segment? = some (g, stream) → g.head.kind = .heading s w →
    mid.log.count < (mid.takeSegment g stream).log.count ∨
      (mid.takeSegment g stream).draft.sections.active = some s
  /-- A gate has no more inputs than there are numbered pins. -/
  gates : ∀ {gs mid kind qualifier n}, r.Passes gs mid →
    DeviceKind.settingFor kind qualifier = some (.inputs n) →
    n ≤ mid.circuit.pins.numbered.length
  /-- And an XOR gate takes two of them. -/
  xor : ∀ {gs mid}, r.Passes gs mid → 2 ≤ mid.circuit.pins.numbered.length

theorem Circuit.Over.length_numbered {t : NameTable} {c : Circuit} (h : c.Over t) :
    c.pins.numbered.length = 16 := by
  rw [h.pins]
  exact List.length_map _

/-- A reading over a consistent circuit does not take them. -/
theorem Session.Consistent.guarded_read {s : Session} (h : s.Consistent) (source : String)
    (limit : Option Nat) : (s.read source limit).Guarded := by
  have hmid {gs : List Segment} {mid : Reading} (hpasses : (s.read source limit).Passes gs mid) :
      mid.stream.Sound ∧ mid.circuit.Over mid.names ∧ mid.circuit.Consistent mid.names := by
    obtain ⟨hover, hconsistent⟩ := h.passes hpasses
    exact ⟨((Reading.reads_start source _ _ limit).passes hpasses).sound, hover, hconsistent⟩
  exact {
    silent := fun d hd text htext => by
      rcases (s.read source limit).reports_readOn hd with hd | hreports
      · cases hd
      cases hreports with
      | fault passes next faulty =>
        obtain ⟨hsound, hover, hconsistent⟩ := hmid passes
        exact Problem.not_prefix_of_live
          (Reading.live_of_take hsound hover hconsistent next faulty) htext
      | omission ends missing =>
        exact Problem.not_prefix_of_live (Draft.live_of_mem_omissions missing) htext
    tokens := fun hpasses hg k hk => TokenStream.resolved_of_segment? (hmid hpasses).1 hg hk
    headings := fun _ _ hhead => Reading.reported_or_entered hhead
    gates := fun hpasses hsetting => by
      rw [(hmid hpasses).2.1.length_numbered]
      exact DeviceKind.count_le_of_admits (DeviceKind.admits_of_settingFor hsetting)
    xor := fun hpasses => by
      rw [(hmid hpasses).2.1.length_numbered]
      decide }

/-- **Branches that are there for safety only are never taken**, in any session that can be reached,
whatever identifiers its devices were declared under. And in a check all identifiers that are held
have names, at every segment and at the end, so no message has a question mark for one. -/
theorem Session.guarded_runAll (words : List String) (commands : List Command) (source : String)
    (limit : Option Nat) :
    let r := ((start words).runAll commands).read source limit
    let fresh := Reading.ofCheck source limit
    r.Guarded ∧ (∀ {gs mid}, fresh.Passes gs mid → mid.draft.Named mid.names) ∧
      fresh.parse.2.draft.Named fresh.parse.2.names ∧
      ∀ d ∈ (check source limit).diagnostics, '?' ∉ d.message.toList := by
  intro r fresh
  have hcheck := Reading.registered_ofCheck source limit
  refine ⟨(consistent_reachable words commands).guarded_read source limit,
    fun hpasses => (hcheck.passes hpasses).named, hcheck.readOn.named, fun d hd => ?_⟩
  rw [check_eq] at hd
  rcases fresh.reports_readOn hd with hd | hreports
  · cases hd
  · obtain ⟨problem, hmessage, htold⟩ := hcheck.told_of_reports hreports
    rw [hmessage]
    exact Problem.plain_message fun name hname =>
      Reading.plain_ofCheck source limit name (htold name hname)

/-- In a session, a device may be declared under an identifier that has no name. -/
example : let s := (Session.start []).run (.declare 100 .and (some (.value 1)))
    (s.read "" none).parse.2.log.diagnostics.map Diagnostic.message =
      ["No valid DEVICE section found in the definition file",
        "Some inputs are not connected: ?.I1"] := by
  decide +kernel

end Netlist
