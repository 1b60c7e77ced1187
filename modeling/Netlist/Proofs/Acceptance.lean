import Netlist.Proofs.Checking
import Netlist.Proofs.Outline
import Netlist.Proofs.Passage
import Netlist.Proofs.Typing

/-!
# Which sources are accepted

A source passes the check just if it spells a well-typed definition. Read without a fault, it is a
list of items that go from outline to outline; from the empty outline, these are the items of one
definition, which makes the blueprint of the last outline.

## Results

* `Definition.At.steps`, `Definition.Makes.steps`: the items with steps are those of a definition.
* `Draft.Follows.of_takeAll`, `Draft.Follows.takeAll`: segments without a fault are items with
  steps.
* `Reading.readOn_fst_iff`: a reading succeeds if there is no fault and nothing is missing.
* `success_check_iff`: **a source is accepted just if it is a well-typed definition.**
-/

namespace Netlist

/-! ## Items on a blueprint -/

namespace Blueprint

variable {B B' : Blueprint}

/-- Whether no part has a reserved name. -/
def Unreserved (B : Blueprint) : Prop := ∀ x ∈ B.parts, x.name ∉ Vocabulary.words

theorem adds_device_iff {x : DeviceLine} : B.Adds (.device x) B' ↔
    (∀ y ∈ B.parts, y.name ≠ x.name) ∧
      ∃ y, x.Declares y ∧ B' = { B with parts := B.parts ++ [y] } := by
  unfold Adds
  simp only [Item.Readable, Item.clause?, Option.mem_def, Option.some.injEq, exists_eq_left',
    DeviceLine.clause, carry, toOption_eq_some_iff, declare_eq_ok_iff]
  constructor
  · rintro ⟨hr, hfresh, setting, hs, rfl⟩
    exact ⟨hfresh, ⟨x.name, x.kind, setting⟩, ⟨hr, rfl, rfl, hs⟩, rfl⟩
  · rintro ⟨hfresh, ⟨_, _, setting⟩, ⟨hr, rfl, rfl, hs⟩, rfl⟩
    exact ⟨hr, hfresh, setting, hs, rfl⟩

theorem adds_connection_iff (h : B.Coherent) (hu : B.Unreserved) {w : Wire} :
    B.Adds (.connection w) B' ↔ B.HasOutput w.source ∧ B.HasInput w.device w.pin ∧
      ¬B.Driven w.device w.pin ∧ B' = { B with wires := B.wires ++ [w] } := by
  unfold Adds
  simp only [Item.Readable, Item.clause?, Option.mem_def, Option.some.injEq, exists_eq_left',
    carry, toOption_eq_some_iff, h.connect_eq_ok_iff]
  constructor
  · rintro ⟨-, h⟩
    exact h
  · intro h
    obtain ⟨⟨x, hx, hxn, -⟩, ⟨y, hy, hyn, -⟩, -⟩ := id h
    exact ⟨⟨⟨h.1, hxn ▸ hu x hx⟩, h.2.1, hyn ▸ hu y hy⟩, h⟩

theorem adds_monitor_iff (h : B.Coherent) (hu : B.Unreserved) {o : OutputName} :
    B.Adds (.monitor o) B' ↔
      B.HasOutput o ∧ o ∉ B.probes ∧ B' = { B with probes := B.probes ++ [o] } := by
  unfold Adds
  simp only [Item.Readable, Item.clause?, Option.mem_def, Option.some.injEq, exists_eq_left',
    carry, toOption_eq_some_iff, h.monitor_eq_ok_iff]
  constructor
  · rintro ⟨-, h⟩
    exact h
  · intro h
    obtain ⟨⟨x, hx, hxn, -⟩, -⟩ := id h
    exact ⟨⟨h.1, hxn ▸ hu x hx⟩, h⟩

/-- Accepted items keep a blueprint coherent. -/
theorem Adds.coherent {i : Item} (h : B.Adds i B') (hB : B.Coherent) : B'.Coherent := by
  obtain ⟨-, clause, -, hc⟩ := h
  cases clause with
  | declare name kind qualifier => exact hB.declare (toOption_eq_some_iff.mp hc)
  | connect w => exact hB.connect (toOption_eq_some_iff.mp hc)
  | monitor o => exact hB.monitor (toOption_eq_some_iff.mp hc)

end Blueprint

/-! ## Items that go on from an outline -/

/-- Items go on, one after the other, from an outline. -/
inductive Outline.Steps : Outline → List Item → Outline → Prop
  | nil {o : Outline} : Steps o [] o
  | cons {o o' o'' : Outline} {i : Item} {is : List Item} (step : o.Step i o')
      (rest : Steps o' is o'') : Steps o (i :: is) o''

theorem Outline.Steps.append {o o' o'' : Outline} {is js : List Item} (h : o.Steps is o')
    (h' : o'.Steps js o'') : o.Steps (is ++ js) o'' := by
  induction h with
  | nil => exact h'
  | cons step _ ih => exact .cons step (ih h')

/-- The outline before the first item. -/
def Outline.start : Outline := ⟨none, .empty⟩

namespace Definition

/-- The items of a definition up to the end of a section. -/
def itemsTo (d : Definition) : Option Section → List Item
  | none => []
  | some .device => .title .device :: d.devices.map .device
  | some .connection =>
    .title .device :: d.devices.map .device ++ .title .connection :: d.connections.map .connection
  | some .monitor => d.items

/-- Whether a definition has nothing behind a section. -/
def Within (d : Definition) : Option Section → Prop
  | none => d.devices = [] ∧ d.connections = [] ∧ d.monitors = []
  | some .device => d.connections = [] ∧ d.monitors = []
  | some .connection => d.monitors = []
  | some .monitor => True

/-- A definition, as far as it was read, is what an outline says. -/
structure At (d : Definition) (o : Outline) : Prop where
  within : d.Within o.active
  makes : d.Makes o.blueprint

variable {d : Definition} {o o' : Outline} {B B' : Blueprint}

theorem at_start : (Definition.mk [] [] []).At .start :=
  ⟨⟨rfl, rfl, rfl⟩, .nil, rfl, rfl, Blueprint.coherent_empty⟩

theorem Makes.unreserved (h : d.Makes B) : B.Unreserved :=
  (forall_mem_iff_of_forall₂ h.parts (p := fun _ => True) fun _ _ hxy =>
    iff_of_true trivial (hxy.name ▸ hxy.readable.unreserved)).mp fun _ _ => trivial

/-- A step goes on with the items of a definition. -/
theorem At.step (h : d.At o) {i : Item} (hs : o.Step i o') :
    ∃ d' : Definition, d'.At o' ∧ d'.itemsTo o'.active = d.itemsTo o.active ++ [i] := by
  obtain ⟨devices, connections, monitors⟩ := d
  obtain ⟨hwithin, hmakes⟩ := h
  cases hs with
  | @title s B =>
    cases s with
    | device =>
      obtain ⟨rfl, rfl, rfl⟩ : devices = [] ∧ connections = [] ∧ monitors = [] := hwithin
      exact ⟨⟨[], [], []⟩, ⟨⟨rfl, rfl⟩, hmakes⟩, rfl⟩
    | connection =>
      obtain ⟨rfl, rfl⟩ : connections = [] ∧ monitors = [] := hwithin
      exact ⟨⟨devices, [], []⟩, ⟨rfl, hmakes⟩, rfl⟩
    | monitor =>
      obtain rfl : monitors = [] := hwithin
      refine ⟨⟨devices, connections, []⟩, ⟨trivial, hmakes⟩, ?_⟩
      simp [itemsTo, items, show Section.monitor.predecessors.getLast? = some .connection from rfl]
  | @statement _ k B B' hkey hadds =>
    have hcoherent := hadds.coherent hmakes.coherent
    cases i with
    | title s => cases hkey
    | device x =>
      cases hkey
      obtain ⟨-, y, hxy, rfl⟩ := Blueprint.adds_device_iff.mp hadds
      refine ⟨⟨devices ++ [x], connections, monitors⟩, ⟨hwithin, ?_, hmakes.wires, hmakes.probes,
        hcoherent⟩, ?_⟩
      · exact List.rel_append hmakes.parts (.cons hxy .nil)
      · simp [itemsTo, Keyword.homeSection]
    | connection w =>
      cases hkey
      obtain ⟨-, -, -, rfl⟩ :=
        (Blueprint.adds_connection_iff hmakes.coherent hmakes.unreserved).mp hadds
      refine ⟨⟨devices, connections ++ [w], monitors⟩, ⟨hwithin, hmakes.parts, ?_, hmakes.probes,
        hcoherent⟩, ?_⟩
      · exact congrArg (· ++ [w]) hmakes.wires
      · simp [itemsTo, Keyword.homeSection]
    | monitor p =>
      cases hkey
      obtain ⟨-, -, rfl⟩ := (Blueprint.adds_monitor_iff hmakes.coherent hmakes.unreserved).mp hadds
      refine ⟨⟨devices, connections, monitors ++ [p]⟩, ⟨trivial, hmakes.parts, hmakes.wires, ?_,
        hcoherent⟩, ?_⟩
      · exact congrArg (· ++ [p]) hmakes.probes
      · simp [itemsTo, items, Keyword.homeSection]

/-- Items with steps go on with the items of a definition. -/
theorem At.steps (h : d.At o) {is : List Item} (hs : o.Steps is o') :
    ∃ d' : Definition, d'.At o' ∧ d'.itemsTo o'.active = d.itemsTo o.active ++ is := by
  induction hs generalizing d with
  | nil => exact ⟨d, h, (List.append_nil _).symm⟩
  | cons step _ ih =>
    obtain ⟨d₁, h₁, hitems₁⟩ := h.step step
    obtain ⟨d', h', hitems⟩ := ih h₁
    exact ⟨d', h', by rw [hitems, hitems₁, List.append_assoc, List.singleton_append]⟩

/-! ### Every definition has its steps -/

theorem steps_devices {xs : List DeviceLine} {ys : List Part}
    (h : List.Forall₂ DeviceLine.Declares xs ys) :
    ∀ {B : Blueprint}, ((B.parts ++ ys).map Part.name).Nodup →
      Outline.Steps ⟨some .device, B⟩ (xs.map .device)
        ⟨some .device, { B with parts := B.parts ++ ys }⟩ := by
  induction h with
  | nil => exact fun {B} _ => by rw [List.append_nil]; exact .nil
  | @cons x y xs ys hxy _ ih =>
    intro B hn
    have hfresh : ∀ z ∈ B.parts, z.name ≠ x.name := by
      rw [List.map_append, List.nodup_append] at hn
      intro z hz
      rw [← hxy.name]
      exact hn.2.2 _ (List.mem_map_of_mem hz) _ List.mem_cons_self
    rw [show B.parts ++ y :: ys = (B.parts ++ [y]) ++ ys by simp] at hn ⊢
    exact .cons (.statement (k := .device x.kind) rfl
      (Blueprint.adds_device_iff.mpr ⟨hfresh, y, hxy, rfl⟩)) (ih hn)

theorem steps_connections {ws : List Wire} : ∀ {B : Blueprint}, B.Coherent → B.Unreserved →
    (∀ w ∈ ws, B.HasOutput w.source ∧ B.HasInput w.device w.pin) →
    ((B.wires ++ ws).map fun w => (w.device, w.pin)).Nodup →
      Outline.Steps ⟨some .connection, B⟩ (ws.map .connection)
        ⟨some .connection, { B with wires := B.wires ++ ws }⟩ := by
  induction ws with
  | nil => exact fun {B} _ _ _ _ => by rw [List.append_nil]; exact .nil
  | cons w ws ih =>
    intro B hB hu hw hn
    have hfree : ¬B.Driven w.device w.pin := by
      rw [List.map_append, List.nodup_append] at hn
      rintro ⟨v, hv, hd, hp⟩
      exact hn.2.2 _ (List.mem_map_of_mem hv) _ List.mem_cons_self (Prod.ext hd hp)
    rw [show B.wires ++ w :: ws = (B.wires ++ [w]) ++ ws by simp] at hn ⊢
    rw [List.forall_mem_cons] at hw
    have hadds : B.Adds (.connection w) { B with wires := B.wires ++ [w] } :=
      (Blueprint.adds_connection_iff hB hu).mpr ⟨hw.1.1, hw.1.2, hfree, rfl⟩
    exact .cons (.statement (k := .connect) rfl hadds) (ih (hadds.coherent hB) hu hw.2 hn)

theorem steps_monitors {os : List OutputName} : ∀ {B : Blueprint}, B.Coherent → B.Unreserved →
    (∀ o ∈ os, B.HasOutput o) → (B.probes ++ os).Nodup →
      Outline.Steps ⟨some .monitor, B⟩ (os.map .monitor)
        ⟨some .monitor, { B with probes := B.probes ++ os }⟩ := by
  induction os with
  | nil => exact fun {B} _ _ _ _ => by rw [List.append_nil]; exact .nil
  | cons o os ih =>
    intro B hB hu ho hn
    have hnew : o ∉ B.probes := by
      rw [List.nodup_append] at hn
      exact fun hm => hn.2.2 _ hm _ List.mem_cons_self rfl
    rw [show B.probes ++ o :: os = (B.probes ++ [o]) ++ os by simp] at hn ⊢
    rw [List.forall_mem_cons] at ho
    have hadds : B.Adds (.monitor o) { B with probes := B.probes ++ [o] } :=
      (Blueprint.adds_monitor_iff hB hu).mpr ⟨ho.1, hnew, rfl⟩
    exact .cons (.statement (k := .monitor) rfl hadds) (ih (hadds.coherent hB) hu ho.2 hn)

/-- The items of a definition go on to the blueprint that it makes. -/
theorem Makes.steps (h : d.Makes B) : Outline.start.Steps d.items ⟨some .monitor, B⟩ := by
  obtain ⟨devices, connections, monitors⟩ := d
  obtain ⟨parts, wires, probes⟩ := B
  have hu := h.unreserved
  obtain ⟨hparts, rfl, rfl, hB⟩ := h
  have hB₁ : (Blueprint.mk parts [] []).Coherent := ⟨hB.names, hB.admitted, nofun, nofun,
    List.nodup_nil, nofun, List.nodup_nil⟩
  have hB₂ : (Blueprint.mk parts wires []).Coherent := ⟨hB.names, hB.admitted, hB.sources,
    hB.sinks, hB.drivers, nofun, List.nodup_nil⟩
  refine (Outline.Steps.append (.cons (.title (s := .device))
    (steps_devices hparts (B := .empty) hB.names)) (.cons (.title (s := .connection))
      (steps_connections hB₁ hu (fun w hw => ⟨hB.sources w hw, hB.sinks w hw⟩) hB.drivers))).append
        (.cons (.title (s := .monitor)) (steps_monitors hB₂ hu hB.outputs hB.probes))

/-- **The items that go on to the last section are those of a definition.** -/
theorem steps_iff {items : List Item} : Outline.start.Steps items ⟨some .monitor, B⟩ ↔
    ∃ d : Definition, items = d.items ∧ d.Makes B := by
  constructor
  · intro h
    obtain ⟨d, hd, hitems⟩ := at_start.steps h
    exact ⟨d, hitems.symm, hd.makes⟩
  · rintro ⟨d, rfl, h⟩
    exact h.steps

end Definition

/-! ## Segments without a fault -/

section TakeAll

variable {t : NameTable} {d d' : Draft} {o o' : Outline} {cs : List Chunk} {p : Position}

/-- Segments that are taken in without a fault are items with their steps. -/
theorem Draft.Follows.of_takeAll (h : d.Follows t o) (hc : ∀ c ∈ cs, c.Cut ∧ t.Knows c.lexemes)
    (ht : d.takeAll (Chunk.segmentsOver t p cs) = ([], d')) :
    ∃ is o', List.Forall₂ (fun i c => Spells i.symbols c.lexemes []) is cs ∧ o.Steps is o' ∧
      d'.Follows t o' := by
  induction cs generalizing d o p with
  | nil =>
    obtain rfl := (Prod.mk.inj ht).2
    exact ⟨[], o, .nil, .nil, h⟩
  | cons c cs ih =>
    rw [List.forall_mem_cons] at hc
    rw [Chunk.segmentsOver, Draft.takeAll_cons] at ht
    obtain ⟨hfaults, hd'⟩ := Prod.mk.inj ht
    obtain ⟨hfault, hrest⟩ := List.append_eq_nil_iff.mp hfaults
    obtain ⟨i, o₁, hspells, hstep, h₁⟩ := h.of_take hc.1.1 hc.1.2
      (Prod.ext (Option.toList_eq_nil_iff.mp hfault) rfl)
    obtain ⟨is, o', hspells', hsteps, h'⟩ := ih h₁ hc.2 (Prod.ext hrest hd')
    exact ⟨i :: is, o', .cons hspells hspells', .cons hstep hsteps, h'⟩

/-- Items with their steps are taken in without a fault. -/
theorem Draft.Follows.takeAll (h : d.Follows t o) (hc : ∀ c ∈ cs, c.Cut ∧ t.Knows c.lexemes)
    {is : List Item} (hspells : List.Forall₂ (fun i c => Spells i.symbols c.lexemes []) is cs)
    (hsteps : o.Steps is o') :
    ∃ d', d.takeAll (Chunk.segmentsOver t p cs) = ([], d') ∧ d'.Follows t o' := by
  induction hspells generalizing d o p with
  | nil =>
    cases hsteps
    exact ⟨d, rfl, h⟩
  | cons hi _ ih =>
    rw [List.forall_mem_cons] at hc
    cases hsteps with
    | cons hstep hsteps =>
      obtain ⟨d₁, ht, h₁⟩ := h.take hc.1.1 hc.1.2 hi hstep
      obtain ⟨d', ht', h'⟩ := ih h₁ hc.2 hsteps
      refine ⟨d', ?_, h'⟩
      rw [Chunk.segmentsOver, Draft.takeAll_cons, ht, ht']
      rfl

end TakeAll

/-! ## Nothing is missing -/

theorem Blueprint.unconnected_eq_nil_iff {B : Blueprint} :
    B.unconnected = [] ↔ ∀ x ∈ B.parts, ∀ pin ∈ x.inputs, B.Driven x.name pin := by
  unfold unconnected
  simp [List.flatMap_eq_nil_iff, List.filter_eq_nil_iff]

theorem Blueprint.unused_eq_nil_iff {B : Blueprint} :
    B.unused = [] ↔ ∀ x ∈ B.parts, B.Uses x.name := by
  unfold unused
  simp [List.filter_eq_nil_iff]

theorem eq_nil_iff_of_perm_map {α β : Type} {f : α → β} {as : List α} {bs : List β}
    (h : (as.map f).Perm bs) : as = [] ↔ bs = [] := by
  rw [← List.length_eq_zero_iff, ← List.length_eq_zero_iff (l := bs), ← h.length_eq,
    List.length_map]

namespace Draft

variable {t : NameTable} {d : Draft}

theorem unconnectedInputs_eq_none_iff {B : Blueprint} (h : d.Depicts t B) (names : NameTable) :
    d.unconnectedInputs names = none ↔ B.unconnected = [] := by
  rw [← eq_nil_iff_of_perm_map h.circuit.perm_unconnectedNames]
  unfold unconnectedInputs Circuit.fullyConnected
  cases d.circuit.unconnected <;> simp

theorem unusedDevices_eq_none_iff {B : Blueprint} (h : d.Depicts t B) (names : NameTable) :
    d.unusedDevices names = none ↔ B.unused = [] := by
  rw [← eq_nil_iff_of_perm_map h.perm_unusedNames]
  unfold unusedDevices SortedMap.isEmpty SortedMap.keys
  cases d.unused.entries <;> simp

/-- Behind an outline, nothing is missing just if all sections came and the blueprint is
complete. -/
theorem Follows.omissions_eq_nil_iff {o : Outline} (h : d.Follows t o) (names : NameTable) :
    d.omissions names true = [] ↔ o.active = some .monitor ∧ o.blueprint.Complete := by
  have hsection : d.absentSection true = none ↔ o.active = some .monitor := by
    unfold absentSection
    rw [h.sections, if_pos rfl]
    rcases o.active with _ | _ | _ | _ <;> decide
  unfold omissions
  simp only [List.append_eq_nil_iff, Option.toList_eq_nil_iff, hsection,
    unconnectedInputs_eq_none_iff h.depicts, unusedDevices_eq_none_iff h.depicts,
    Blueprint.unconnected_eq_nil_iff, Blueprint.unused_eq_nil_iff, and_assoc]
  exact and_congr_right fun _ => ⟨fun ⟨hd, hu⟩ => ⟨hd, hu⟩, fun ⟨hd, hu⟩ => ⟨hd, hu⟩⟩

/-- Segments without a fault behind which nothing is missing are those of a definition. -/
theorem Follows.exists_definition (h : d.Follows t .start) {cs : List Chunk}
    (hc : ∀ c ∈ cs, c.Cut ∧ t.Knows c.lexemes) {p : Position} {names : NameTable}
    (hfaults : (d.takeAll (Chunk.segmentsOver t p cs)).1 = [])
    (homissions : (d.takeAll (Chunk.segmentsOver t p cs)).2.omissions names true = []) :
    ∃ (definition : Definition) (B : Blueprint), definition.Makes B ∧ B.Complete ∧
      List.Forall₂ (fun i c => Spells i.symbols c.lexemes []) definition.items cs := by
  obtain ⟨is, o, hspells, hsteps, hd⟩ := h.of_takeAll hc (Prod.ext hfaults rfl)
  obtain ⟨hactive, hcomplete⟩ := (hd.omissions_eq_nil_iff _).mp homissions
  obtain ⟨active, B⟩ := o
  obtain rfl : active = some .monitor := hactive
  obtain ⟨definition, rfl, hmakes⟩ := Definition.steps_iff.mp hsteps
  exact ⟨definition, B, hmakes, hcomplete, hspells⟩

end Draft

/-! ## Readings -/

namespace Reading

theorem clean_complete_iff {r : Reading} : r.complete.finish.clean = true ↔
    r.clean = true ∧ r.draft.omissions r.names true = [] := by
  have hcount : r.complete.finish.log.count =
      r.log.count + (r.draft.omissions r.names r.clean).length :=
    DiagnosticLog.count_reportGlobals _ _
  rw [clean_iff, hcount, Nat.add_eq_zero_iff, List.length_eq_zero_iff, ← clean_iff]
  refine and_congr_right fun hclean => ?_
  rw [hclean]

/-- **A reading succeeds if there is no fault and nothing is missing**, whatever the limit is. -/
theorem readOn_fst_iff {r : Reading} (h : r.stream.Sound) :
    r.readOn.1 = true ↔ r.clean = true ∧ (r.draft.takeAll r.stream.segments).1 = [] ∧
      (r.draft.takeAll r.stream.segments).2.omissions r.stream.allNames true = [] := by
  fun_induction readOn r with
  | case1 r hn =>
    rw [TokenStream.segments_of_none h hn, ← TokenStream.names_of_segment?_none h hn]
    show r.complete.finish.clean = true ↔ _
    rw [clean_complete_iff]
    simp only [Draft.takeAll, true_and]
    rfl
  | case2 r g stream hg r' hr' =>
    obtain ⟨-, -, hseg⟩ := TokenStream.behind_of_segment? h hg
    refine iff_of_false Bool.false_ne_true ?_
    rintro ⟨hclean, hfaults, -⟩
    rw [hseg, Draft.takeAll_cons] at hfaults
    have hnone := Option.toList_eq_nil_iff.mp (List.append_eq_nil_iff.mp hfaults).1
    have hnot : (r.takeSegment g stream).clean = false := not_clean_of_limitReached hr'
    rw [clean_takeSegment_iff.mpr ⟨hclean, hnone⟩] at hnot
    cases hnot
  | case3 r g stream hg r' hr' ih =>
    obtain ⟨hs, hnames, hseg⟩ := TokenStream.behind_of_segment? h hg
    rw [ih hs]
    have hdraft : r'.draft = (r.draft.take g).2 := rfl
    have hstream : r'.stream = stream := rfl
    have hclean : r'.clean = true ↔ _ := clean_takeSegment_iff
    rw [hclean, hdraft, hstream, hnames, hseg, Draft.takeAll_cons, List.append_eq_nil_iff,
      Option.toList_eq_nil_iff]
    simp only [and_assoc]

end Reading

theorem Reading.follows_ofCheck (source : String) (limit : Option Nat) :
    (ofCheck source limit).draft.Follows (ofCheck source limit).stream.allNames .start :=
  ⟨depicts_ofCheck source limit, rfl⟩

/-- **A source is accepted just if it is a well-typed definition**: `check` succeeds if and only if
the lexemes of the source spell a definition by the grammar, nothing but white space and comments
follows, and the definition is well typed. It does so whatever the limit on errors is. -/
theorem success_check_iff (source : String) (limit : Option Nat) :
    (check source limit).success = true ↔
      ∃ d : Definition, d.SpelledBy source ∧ d.WellTyped := by
  have hfollows := Reading.follows_ofCheck source limit
  have hknows := Reading.knows_ofCheck source limit
  have hclean : (Reading.ofCheck source limit).clean = true := rfl
  rw [check_eq, Reading.readOn_fst_iff (Reading.sound_ofCheck source limit),
    Reading.segments_ofCheck]
  constructor
  · rintro ⟨-, hfaults, homissions⟩
    obtain ⟨d, B, hmakes, hcomplete, hspells⟩ :=
      hfollows.exists_definition hknows hfaults homissions
    exact ⟨d, spells_items_iff.mpr hspells, hmakes.wellTyped hcomplete⟩
  · rintro ⟨d, hspelled, htyped⟩
    obtain ⟨B, hmakes, hcomplete⟩ := htyped.exists_makes
    obtain ⟨d', htake, hd'⟩ := hfollows.takeAll hknows (spells_items_iff.mp hspelled) hmakes.steps
    rw [htake]
    exact ⟨hclean, rfl, (hd'.omissions_eq_nil_iff _).mpr ⟨rfl, hcomplete⟩⟩

end Netlist
