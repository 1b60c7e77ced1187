import Netlist.Proofs.Acceptance

/-!
# Statements and what they make

Every statement that is accepted makes one entry of a circuit: a device, a connection or a monitor.
The registries of a circuit are counted by the section whose statements fill them. Along a reading
without a fault, each count is the number of segments that are statements of the section; these are
the statements of the definition that the source spells, and they are told in the text by their
keywords, as no name in a definition is a keyword.

## Results

* `Draft.count_take`: a statement without a fault makes one entry.
* `Draft.count_takeAll`: segments without a fault make as many entries as there are statements.
* `statements_of_spelledBy`: the keywords of a source are the statements that it spells.
* `exists_definition_check`: **the registries of a check without errors have one entry for each
  statement of the source.**
-/

namespace Netlist

open Lexeme (chunks)

/-! ## Entries of a circuit -/

namespace Circuit

/-- The number of entries that the statements of a section make. -/
def count (c : Circuit) : Section → Nat
  | .device => c.devices.size
  | .connection => c.connections
  | .monitor => c.monitors.size

variable {c c' : Circuit}

theorem count_of_declare {id : NameId} {kind : DeviceKind} {qualifier : Option Qualifier}
    (h : c.declare id kind qualifier = .ok c') (s : Section) :
    c'.count s = c.count s + if s = .device then 1 else 0 := by
  obtain ⟨hfresh, setting, -, rfl⟩ := declare_eq_ok_iff.mp h
  cases s with
  | device => exact SortedMap.size_insert hfresh _
  | _ => rfl

theorem count_of_connect {source : Output} {sink : Input} (h : c.connect source sink = .ok c')
    (s : Section) : c'.count s = c.count s + if s = .connection then 1 else 0 := by
  obtain ⟨_, _, -, -, -, -, rfl⟩ := connect_eq_ok_iff.mp h
  cases s with
  | device => exact SortedMap.size_modify _ _ _
  | _ => rfl

theorem count_of_monitor {output : Output} (h : c.monitor output = .ok c') (s : Section) :
    c'.count s = c.count s + if s = .monitor then 1 else 0 := by
  obtain ⟨_, -, -, hnew, rfl⟩ := monitor_eq_ok_iff.mp h
  cases s with
  | monitor => exact SortedMap.size_insert (SortedMap.contains_eq_false_iff.mp hnew) ()
  | _ => rfl

end Circuit

/-! ## Segments -/

/-- The section that a statement belongs to. -/
def Statement.home : Statement → Section
  | .declaration _ => .device
  | .connection _ => .connection
  | .monitor _ => .monitor

/-- A statement is read for its keyword. -/
theorem Statement.home_of_read {c : Circuit} {k : Keyword} {ts : List Token} {st : Statement}
    (h : ((Statement.read c k).runOn ts).1 = .ok st) : st.home = k.homeSection := by
  unfold Statement.read at h
  cases k
  all_goals
    simp only [TokenReader.runOn_bind] at h
    split at h
    · obtain rfl := Except.ok.inj h
      rfl
    · cases h

/-- The section that a segment is a statement of, by its keyword. -/
def Segment.home? (g : Segment) : Option Section :=
  match g.head.kind with
  | .keyword k _ => some k.homeSection
  | _ => none

namespace Draft

variable {d d' : Draft} {g : Segment}

/-- An accepted statement makes one entry. -/
theorem count_of_apply {st : Statement} (h : d.apply st = .ok d') (s : Section) :
    d'.circuit.count s = d.circuit.count s + if s = st.home then 1 else 0 := by
  cases acceptedBy_of_apply h with
  | declaration hc => exact Circuit.count_of_declare hc s
  | connection hc => exact Circuit.count_of_connect hc s
  | monitor hc => exact Circuit.count_of_monitor hc s

/-- **A segment without a fault makes one entry if it is a statement**, and none if not. -/
theorem count_take (h : (d.take g).1 = none) (s : Section) :
    (d.take g).2.circuit.count s = d.circuit.count s + if g.home? = some s then 1 else 0 := by
  unfold Segment.home?
  rcases d.take_cases g with
    ⟨fault, ht⟩ | ⟨heading, w, hhead, ht⟩ | ⟨k, w, st, d', hhead, -, hread, ha, ht⟩
  · rw [ht] at h
    cases h
  · rw [ht, hhead]
    rfl
  · rw [ht, hhead, count_of_apply ha, Statement.home_of_read hread]
    simp only [Option.some.injEq, eq_comm]

/-- **Segments without a fault make as many entries as there are statements.** -/
theorem count_takeAll {gs : List Segment} (h : (d.takeAll gs).1 = []) (s : Section) :
    (d.takeAll gs).2.circuit.count s =
      d.circuit.count s + gs.countP fun g => g.home? = some s := by
  induction gs generalizing d with
  | nil => rfl
  | cons g gs ih =>
    rw [takeAll_cons] at h ⊢
    obtain ⟨hfault, hrest⟩ := List.append_eq_nil_iff.mp h
    rw [ih hrest, count_take (Option.toList_eq_nil_iff.mp hfault), List.countP_cons]
    simp only [decide_eq_true_eq]
    omega

end Draft

/-! ## Items -/

/-- The section that an item is a statement of. -/
def Item.home? (i : Item) : Option Section := i.keyword?.map Keyword.homeSection

/-- The number of statements of a definition in a section. -/
def Definition.count (d : Definition) : Section → Nat
  | .device => d.devices.length
  | .connection => d.connections.length
  | .monitor => d.monitors.length

theorem Definition.countP_items (d : Definition) (s : Section) :
    d.items.countP (fun i => i.home? = some s) = d.count s := by
  have hhome {α : Type} (f : α → Item) (home : Section) (as : List α)
      (h : ∀ a, (f a).home? = some home) :
      (as.map f).countP (fun i => i.home? = some s) = if home = s then as.length else 0 := by
    rw [List.countP_map]
    by_cases hs : home = s
    · simp [Function.comp_def, h, hs]
    · simp [Function.comp_def, h, hs]
  have hdevices := hhome .device .device d.devices fun _ => rfl
  have hconnections := hhome .connection .connection d.connections fun _ => rfl
  have hmonitors := hhome .monitor .monitor d.monitors fun _ => rfl
  have htitle (t : Section) : (Item.title t).home? = none := rfl
  unfold items
  simp only [List.countP_append, List.countP_cons, htitle, hdevices, hconnections, hmonitors]
  cases s <;> simp [Definition.count]

/-- The first word of an item tells the section that it is a statement of. -/
theorem Chunk.home?_segmentOver {c : Chunk} (hc : c.Cut) {i : Item}
    (h : Spells i.symbols c.lexemes []) (t : NameTable) (p : Position) :
    (c.segmentOver t p).home? = i.home? := by
  have hkind : (c.segmentOver t p).head.kind = .ofWord (t.word i.head) (.ofText i.head) := by
    rw [← kindOver_word, ← (hc.spells_iff.mp h).1]
    rfl
  unfold Segment.home? Item.home?
  rw [hkind]
  cases hkey : i.keyword? with
  | none =>
    cases i with
    | title s =>
      rw [show (Item.title s).head = s.heading from rfl, Vocabulary.ofText_eq_heading_iff.mpr rfl]
      rfl
    | _ => cases hkey
  | some k =>
    rw [Item.head_of_keyword? hkey, Vocabulary.ofText_eq_keyword_iff.mpr rfl]
    rfl

/-- The segments of chunks that spell items are statements as the items are. -/
theorem Chunk.countP_segmentsOver {is : List Item} {cs : List Chunk}
    (h : List.Forall₂ (fun i c => Spells i.symbols c.lexemes []) is cs) (hcut : ∀ c ∈ cs, c.Cut)
    (t : NameTable) (p : Position) (s : Section) :
    (segmentsOver t p cs).countP (fun g => g.home? = some s) =
      is.countP fun i => i.home? = some s := by
  induction h generalizing p with
  | nil => rfl
  | cons hspells _ ih =>
    rw [List.forall_mem_cons] at hcut
    rw [segmentsOver, List.countP_cons, List.countP_cons, ih hcut.2,
      home?_segmentOver hcut.1 hspells]

/-! ## Keywords of a source -/

/-- The words that start a statement of a section. -/
def Section.starters (s : Section) : List String :=
  (Keyword.all.filter (·.homeSection = s)).map Keyword.word

/-- Whether a lexeme is a word that starts a statement of a section. -/
def Lexeme.starts (s : Section) (l : Lexeme) : Bool := s.starters.any fun w => l = .word w.toList

/-- How many words of a text, comments left out, start a statement of a section. -/
def Text.statements (cs : List Char) (s : Section) : Nat :=
  (Lexeme.ofText cs).countP (Lexeme.starts s)

section Starters

variable {s : Section} {w : String}

theorem Lexeme.starts_word_iff : starts s (.word w.toList) = true ↔
    ∃ k, WordClass.ofText w = .keyword k ∧ k.homeSection = s := by
  unfold starts Section.starters
  simp only [List.any_map, List.any_eq_true, List.mem_filter, Function.comp_apply,
    decide_eq_true_eq, Lexeme.word.injEq, String.toList_inj, Vocabulary.ofText_eq_keyword_iff]
  constructor
  · rintro ⟨k, ⟨-, hs⟩, hw⟩
    exact ⟨k, hw, hs⟩
  · rintro ⟨k, hw, hs⟩
    exact ⟨k, ⟨k.mem_all, hs⟩, hw⟩

theorem Lexeme.starts_of_ofText {found : WordClass} (h : WordClass.ofText w = found)
    (hk : ∀ k, found ≠ .keyword k) : starts s (.word w.toList) = false := by
  rw [Bool.eq_false_iff, Ne, starts_word_iff]
  rintro ⟨k, hword, -⟩
  exact hk k (h.symm.trans hword)

theorem Lexeme.starts_of_isBlank {l : Lexeme} (h : l.isBlank = true) : l.starts s = false := by
  cases l with
  | blank text => simp [starts]
  | _ => cases h

/-- The first word of an item starts a statement of the section that the item is one of. -/
theorem Item.starts_head (i : Item) :
    Lexeme.starts s (.word i.head.toList) = decide (i.home? = some s) := by
  cases hkey : i.keyword? with
  | none =>
    cases i with
    | title t =>
      exact Lexeme.starts_of_ofText (Vocabulary.ofText_eq_heading_iff.mpr rfl) nofun
    | _ => cases hkey
  | some k =>
    unfold Item.home?
    rw [Bool.eq_iff_iff, Lexeme.starts_word_iff, Item.head_of_keyword? hkey, hkey]
    simp [Vocabulary.ofText_eq_keyword_iff.mpr rfl]

/-- Items without keywords behind their first words have one for each statement. -/
theorem Item.countP_symbols {is : List Item}
    (h : ∀ i ∈ is, ∀ p ∈ i.tail, p.lexeme.starts s = false) :
    (is.flatMap Item.symbols).countP (fun p => p.lexeme.starts s) =
      is.countP fun i => i.home? = some s := by
  induction is with
  | nil => rfl
  | cons i is ih =>
    obtain ⟨hi, his⟩ := List.forall_mem_cons.mp h
    have htail : i.tail.countP (fun p => p.lexeme.starts s) = 0 :=
      List.countP_eq_zero.mpr fun p hp => by simp [hi p hp]
    have hhead : (Symbol.word i.head).lexeme.starts s = decide (i.home? = some s) := i.starts_head
    rw [List.flatMap_cons, List.countP_append, ih his, symbols, List.countP_cons, htail, hhead,
      List.countP_cons]
    omega

/-- What is spelled has the keywords of its symbols. -/
theorem Spells.countP_starts {ps : List Symbol} {ls rest : List Lexeme} (h : Spells ps ls rest) :
    ls.countP (Lexeme.starts s) =
      ps.countP (fun p => p.lexeme.starts s) + rest.countP (Lexeme.starts s) := by
  induction h with
  | nil => simp
  | @spaced l ps bs ls rest hb _ ih =>
    have hblank : bs.countP (Lexeme.starts s) = 0 := by
      refine List.countP_eq_zero.mpr fun b hbs => ?_
      rw [Lexeme.starts_of_isBlank (hb b hbs)]
      exact Bool.false_ne_true
    simp only [List.countP_append, hblank, List.countP_cons, ih]
    omega
  | glued _ ih =>
    simp only [List.countP_cons, ih]
    omega

/-- The name of a part is no keyword, where no part has a reserved name. -/
theorem Blueprint.Unreserved.starts_word {B : Blueprint} (hB : B.Unreserved)
    (h : ∃ x ∈ B.parts, x.name = w) : Lexeme.starts s (.word w.toList) = false := by
  obtain ⟨x, hx, rfl⟩ := h
  exact Lexeme.starts_of_ofText (Vocabulary.ofText_eq_name_iff.mpr (hB x hx)) nofun

/-- A pin behind its dot is no keyword. -/
theorem Symbol.starts_qualified {pin : String} (h : pin ∈ Pin.words) :
    ∀ p ∈ qualified pin, p.lexeme.starts s = false := by
  have hpin : Lexeme.starts s (.word pin.toList) = false :=
    Lexeme.starts_of_ofText (Vocabulary.ofText_eq_pin_iff.mpr h) nofun
  simp only [qualified, List.forall_mem_cons]
  exact ⟨by simp [Lexeme.starts], hpin, List.forall_mem_nil _⟩

namespace Definition.Makes

variable {d : Definition} {B : Blueprint}

theorem starts_symbols (h : d.Makes B) {o : OutputName} (ho : B.HasOutput o) :
    ∀ p ∈ o.symbols, p.lexeme.starts s = false := by
  obtain ⟨x, hx, hname, hpin⟩ := ho
  unfold OutputName.symbols
  rw [List.forall_mem_cons]
  refine ⟨h.unreserved.starts_word ⟨x, hx, hname⟩, ?_⟩
  cases hopin : o.pin with
  | none => exact List.forall_mem_nil _
  | some pin =>
    exact Symbol.starts_qualified (DeviceKind.mem_words_of_mem_outputWords (hopin ▸ hpin))

/-- Behind its first word, an item of a definition has no keyword. -/
theorem starts_tail (h : d.Makes B) {i : Item} (hi : i ∈ d.items) :
    ∀ p ∈ i.tail, p.lexeme.starts s = false := by
  have hmark (c : Char) : (Symbol.mark c).lexeme.starts s = false := by
    simp [Symbol.mark, Lexeme.starts]
  cases i with
  | title t => simp [Item.tail, hmark]
  | device x =>
    have hx : x ∈ d.devices := by simpa [items] using hi
    have hname : x.name ∈ B.parts.map Part.name := by
      rw [map_name_of_forall₂ h.parts]
      exact List.mem_map_of_mem hx
    have hword := h.unreserved.starts_word (s := s) (List.mem_map.mp hname)
    have hnumeral (digits : String) : (Symbol.numeral digits).lexeme.starts s = false := by
      simp [Symbol.numeral, Lexeme.starts]
    unfold Item.tail
    rw [List.forall_mem_cons, List.forall_mem_append]
    refine ⟨hword, ?_, by simp [hmark]⟩
    cases x.qualifier with
    | none => exact List.forall_mem_nil _
    | some digits => simp [hmark, hnumeral]
  | connection k =>
    have hk : k ∈ B.wires := by
      rw [h.wires]
      simpa [items] using hi
    obtain ⟨x, hx, hname, hpin⟩ := h.coherent.sinks k hk
    have hpin := DeviceKind.mem_words_of_mem_inputWords (h.coherent.admitted x hx) hpin
    have harrow : Symbol.arrow.lexeme.starts s = false := by
      simp [Symbol.arrow, Lexeme.starts]
    unfold Item.tail
    simp only [List.forall_mem_append, List.forall_mem_cons]
    exact ⟨h.starts_symbols (h.coherent.sources k hk), harrow,
      h.unreserved.starts_word ⟨x, hx, hname⟩, Symbol.starts_qualified hpin, hmark ';',
      List.forall_mem_nil _⟩
  | monitor o =>
    have ho : o ∈ B.probes := by
      rw [h.probes]
      simpa [items] using hi
    unfold Item.tail
    rw [List.forall_mem_append]
    exact ⟨h.starts_symbols (h.coherent.outputs o ho), by simp [hmark]⟩

/-- The symbols of a definition have one keyword for each statement. -/
theorem countP_symbols (h : d.Makes B) (s : Section) :
    (d.items.flatMap Item.symbols).countP (fun p => p.lexeme.starts s) = d.count s := by
  rw [Item.countP_symbols fun i hi => h.starts_tail hi, countP_items]

end Definition.Makes

/-- **The keywords of a source are the statements that it spells.** -/
theorem statements_of_spelledBy {d : Definition} {B : Blueprint} {source : String}
    (h : d.SpelledBy source) (hB : d.Makes B) (s : Section) :
    Text.statements source.toList s = d.count s := by
  obtain ⟨rest, hspells, hrest⟩ := h
  have hblank : rest.countP (Lexeme.starts s) = 0 :=
    List.countP_eq_zero.mpr fun l hl => by simp [Lexeme.starts_of_isBlank (hrest l hl)]
  unfold Text.statements
  rw [hspells.countP_starts, hB.countP_symbols, hblank, Nat.add_zero]

end Starters

/-! ## Checks -/

/-- The circuit of a reading without errors is that of its segments. -/
theorem Reading.circuit_readOn {r : Reading} (hs : r.stream.Sound) (h : r.readOn.1 = true) :
    r.readOn.2.circuit = (r.draft.takeAll r.stream.segments).2.circuit := by
  fun_induction readOn r with
  | case1 r hn =>
    rw [TokenStream.segments_of_none hs hn]
    rfl
  | case2 => cases h
  | case3 r g stream hg r' _ ih =>
    obtain ⟨hsound, -, hsegments⟩ := TokenStream.behind_of_segment? hs hg
    rw [ih hsound h, hsegments, Draft.takeAll_cons]
    rfl

/-- **The registries of a check without errors have one entry for each statement of the source**:
of the definition that the source spells, and of the keywords that stand in it. -/
theorem exists_definition_check {source : String} {limit : Option Nat}
    (h : (check source limit).success = true) :
    ∃ d : Definition, d.SpelledBy source ∧ d.WellTyped ∧
      ∀ s, (check source limit).circuit.count s = d.count s ∧
        Text.statements source.toList s = d.count s := by
  have hsound := Reading.sound_ofCheck source limit
  have hknows := Reading.knows_ofCheck source limit
  rw [check_eq] at h ⊢
  obtain ⟨-, hfaults, homissions⟩ := (Reading.readOn_fst_iff hsound).mp h
  have hcircuit := Reading.circuit_readOn hsound h
  have hcount := Draft.count_takeAll hfaults
  rw [Reading.segments_ofCheck] at hfaults homissions hcircuit hcount
  obtain ⟨d, B, hmakes, hcomplete, hspells⟩ :=
    (Reading.follows_ofCheck source limit).exists_definition hknows hfaults homissions
  have hspelled : d.SpelledBy source := spells_items_iff.mpr hspells
  refine ⟨d, hspelled, hmakes.wellTyped hcomplete, fun s => ⟨?_, ?_⟩⟩
  · show (Reading.ofCheck source limit).readOn.2.circuit.count s = _
    rw [hcircuit, hcount, Chunk.countP_segmentsOver hspells fun c hc => (hknows c hc).1,
      d.countP_items]
    have hempty : (Reading.ofCheck source limit).draft.circuit.count s = 0 := by
      cases s <;> rfl
    rw [hempty, Nat.zero_add]
  · exact statements_of_spelledBy hspelled hmakes s

end Netlist
