import Netlist.Proofs.Closing

/-!
# The history of sections

A section history keeps two sets, and a section can be in both: it may be tried out of order first
and be opened in its order later. What the history answers is nevertheless a law of the calls that
were made on it. Entering a section asks which sections were tried before, accepted or not, and
whether this one was accepted before, and the two sets hold just that.

## Results

* `SectionHistory.enter_cases`: what entering a section does.
* `SectionHistory.Records.enter`: the sets keep track of the calls.
* `SectionHistory.lawful_calls`: **the law of any sequence of calls on a fresh history.**
* `Reading.Passes.sections_eq`: the calls that a reading makes are its titles.
-/

namespace Netlist

namespace SectionHistory

/-! ## Calls -/

/-- A call to enter a section, with its answer. -/
structure Call where
  target : Section
  answer : Except SectionFault Unit

/-- The calls that enter sections one after the other. -/
def calls (h : SectionHistory) : List Section → List Call
  | [] => []
  | s :: ss => ⟨s, (h.enter s).1⟩ :: (h.enter s).2.calls ss

/-- The history behind the calls that enter sections one after the other. -/
def enterAll (h : SectionHistory) (ss : List Section) : SectionHistory :=
  ss.foldl (fun h s => (h.enter s).2) h

/-- Whether a section was tried in one of the calls, accepted or not. -/
def Tried (past : List Call) (s : Section) : Prop := s ∈ past.map Call.target

/-- Whether a section was accepted in one of the calls. -/
def Accepted (past : List Call) (s : Section) : Prop := ⟨s, .ok ()⟩ ∈ past

/-- The answer that a call has to have behind the calls `past`. -/
structure Answers (past : List Call) (call : Call) : Prop where
  accepted_iff : call.answer = .ok () ↔
    (∀ p ∈ call.target.predecessors, Tried past p) ∧ ¬Accepted past call.target
  repeated_iff : call.answer = .error (.repeated call.target) ↔ Accepted past call.target
  /-- In all other cases the first predecessor is missing that was never tried. -/
  missing : call.answer ≠ .ok () → call.answer ≠ .error (.repeated call.target) →
    ∃ before p after, call.target.predecessors = before ++ p :: after ∧
      (∀ q ∈ before, Tried past q) ∧ ¬Tried past p ∧
      call.answer = .error (.missingBefore call.target p)

/-- The law of the calls that enter the sections `ss` on a fresh history. -/
structure Lawful (ss : List Section) : Prop where
  targets : (empty.calls ss).map Call.target = ss
  /-- Every call is answered by the law, from the calls in front of it. -/
  answers : ∀ {past later call}, empty.calls ss = past ++ call :: later → Answers past call
  /-- No section is accepted twice. -/
  once : (empty.calls ss).Pairwise fun call call' =>
    call.answer = .ok () → call'.answer = .ok () → call.target ≠ call'.target
  active : (empty.enterAll ss).active = ss.getLast?
  /-- Calls that were all accepted go through the sections in their order. -/
  inOrder : (∀ call ∈ empty.calls ss, call.answer = .ok ()) →
    ss <+: Section.all ∧ (empty.enterAll ss).firstMissing = Section.all[ss.length]?

variable {h : SectionHistory} {past : List Call} {s : Section} {ss : List Section}

theorem entered_iff : h.entered s = true ↔ s ∈ h.opened ∨ s ∈ h.misplaced := by
  unfold entered
  rw [Bool.or_eq_true, List.contains_iff_mem, List.contains_iff_mem]

/-- **What entering a section does.** It is refused if it was opened before, or if a section that
has to come before was never entered, and opened otherwise. -/
theorem enter_cases (h : SectionHistory) (s : Section) :
    (s ∈ h.opened ∧ h.enter s =
      (.error (.repeated s), { h with active := some s, misplaced := h.misplaced.insert s })) ∨
    (s ∉ h.opened ∧ ∃ before p after, s.predecessors = before ++ p :: after ∧
      (∀ q ∈ before, h.entered q = true) ∧ ¬h.entered p = true ∧ h.enter s =
        (.error (.missingBefore s p),
          { h with active := some s, misplaced := h.misplaced.insert s })) ∨
    (s ∉ h.opened ∧ (∀ q ∈ s.predecessors, h.entered q = true) ∧
      h.enter s = (.ok (), { h with active := some s, opened := h.opened.insert s })) := by
  unfold enter fault?
  by_cases hopened : s ∈ h.opened
  · refine .inl ⟨hopened, ?_⟩
    rw [if_pos (List.contains_iff_mem.mpr hopened)]
  · rw [if_neg (mt List.contains_iff_mem.mp hopened)]
    cases hfind : s.predecessors.find? fun p => !h.entered p with
    | none =>
      refine .inr (.inr ⟨hopened, fun q hq => ?_, rfl⟩)
      simpa using List.find?_eq_none.mp hfind q hq
    | some p =>
      obtain ⟨hp, before, after, hsplit, hbefore⟩ := List.find?_eq_some_iff_append.mp hfind
      refine .inr (.inl ⟨hopened, before, p, after, hsplit, fun q hq => ?_, ?_, rfl⟩)
      · simpa using hbefore q hq
      · simpa using hp

/-! ## What the sets keep -/

/-- A history keeps the sections accepted and those tried in the calls `past`, and which of them
came last. -/
structure Records (h : SectionHistory) (past : List Call) : Prop where
  opened : ∀ s, s ∈ h.opened ↔ Accepted past s
  entered : ∀ s, h.entered s = true ↔ Tried past s
  active : h.active = past.getLast?.map Call.target

theorem records_empty : empty.Records [] where
  opened _ := iff_of_false List.not_mem_nil List.not_mem_nil
  entered _ := iff_of_false Bool.false_ne_true List.not_mem_nil
  active := rfl

theorem tried_append_singleton {call : Call} :
    Tried (past ++ [call]) s ↔ s = call.target ∨ Tried past s := by
  unfold Tried
  rw [List.map_append, List.mem_append, List.map_singleton, List.mem_singleton, or_comm]

theorem accepted_append_ok {s' : Section} :
    Accepted (past ++ [⟨s', .ok ()⟩]) s ↔ s = s' ∨ Accepted past s := by
  unfold Accepted
  rw [List.mem_append, List.mem_singleton, or_comm, Call.mk.injEq, and_iff_left rfl]

theorem accepted_append_error {s' : Section} {fault : SectionFault} :
    Accepted (past ++ [⟨s', .error fault⟩]) s ↔ Accepted past s := by
  unfold Accepted
  rw [List.mem_append, List.mem_singleton, Call.mk.injEq, or_iff_left nofun]

theorem Accepted.append (hs : Accepted past s) (later : List Call) :
    Accepted (past ++ later) s := List.mem_append_left later hs

/-- A call that is refused is kept with the sections tried. -/
theorem Records.misplace (hr : h.Records past) (s : Section) (fault : SectionFault) :
    Records { h with active := some s, misplaced := h.misplaced.insert s }
      (past ++ [⟨s, .error fault⟩]) where
  opened s' := (hr.opened s').trans accepted_append_error.symm
  entered s' := by
    rw [tried_append_singleton, ← hr.entered, entered_iff, entered_iff, List.mem_insert_iff]
    tauto
  active := by rw [List.getLast?_concat]; rfl

/-- **The sets keep track of a call.** -/
theorem Records.enter (hr : h.Records past) (s : Section) :
    (h.enter s).2.Records (past ++ [⟨s, (h.enter s).1⟩]) := by
  rcases h.enter_cases s with ⟨-, he⟩ | ⟨-, _, p, _, -, -, -, he⟩ | ⟨-, -, he⟩
  · rw [he]
    exact hr.misplace s _
  · rw [he]
    exact hr.misplace s _
  · rw [he]
    refine ⟨fun s' => ?_, fun s' => ?_, by rw [List.getLast?_concat]; rfl⟩
    · rw [accepted_append_ok, ← hr.opened]
      exact List.mem_insert_iff
    · rw [tried_append_singleton, ← hr.entered, entered_iff, entered_iff, List.mem_insert_iff,
        or_assoc]

/-- **A call is answered by the law.** -/
theorem Records.answers (hr : h.Records past) (s : Section) :
    Answers past ⟨s, (h.enter s).1⟩ := by
  have htried (q : Section) := hr.entered q
  rcases h.enter_cases s with ⟨hs, he⟩ | ⟨hs, before, p, after, hsplit, hbefore, hp, he⟩ |
    ⟨hs, hall, he⟩
  all_goals rw [hr.opened] at hs; rw [he]
  · exact ⟨iff_of_false nofun fun hn => hn.2 hs, iff_of_true rfl hs, fun _ hn => absurd rfl hn⟩
  · rw [htried] at hp
    have hmissing : ¬∀ q ∈ s.predecessors, Tried past q := fun hall =>
      hp (hall p (hsplit ▸ List.mem_append_right _ List.mem_cons_self))
    exact ⟨iff_of_false nofun fun hn => hmissing hn.1, iff_of_false nofun hs,
      fun _ _ => ⟨before, p, after, hsplit, fun q hq => (htried q).mp (hbefore q hq), hp, rfl⟩⟩
  · exact ⟨iff_of_true rfl ⟨fun q hq => (htried q).mp (hall q hq), hs⟩, iff_of_false nofun hs,
      fun hn => absurd rfl hn⟩

/-! ## Sequences of calls -/

theorem Records.enterAll (hr : h.Records past) (ss : List Section) :
    (h.enterAll ss).Records (past ++ h.calls ss) := by
  -- The past grows with every call, so the record is needed for all pasts.
  induction ss generalizing h past with
  | nil =>
    rw [calls, List.append_nil]
    exact hr
  | cons s ss ih =>
    rw [calls, List.append_cons]
    exact ih (hr.enter s)

theorem map_target_calls (h : SectionHistory) (ss : List Section) :
    (h.calls ss).map Call.target = ss := by
  induction ss generalizing h with
  | nil => rfl
  | cons s ss ih => rw [calls, List.map_cons, ih]

theorem Records.answers_calls (hr : h.Records past) {before later : List Call} {call : Call}
    (hcalls : h.calls ss = before ++ call :: later) : Answers (past ++ before) call := by
  induction ss generalizing h past before with
  | nil => exact absurd hcalls.symm (by simp [calls])
  | cons s ss ih =>
    cases before with
    | nil =>
      obtain ⟨rfl, -⟩ := List.cons.inj hcalls
      rw [List.append_nil]
      exact hr.answers s
    | cons first before =>
      obtain ⟨rfl, hrest⟩ := List.cons.inj hcalls
      rw [List.append_cons]
      exact ih (hr.enter s) hrest

/-- A section is accepted only if it was not accepted before. -/
theorem Records.not_accepted (hr : h.Records past) {call : Call} (hcall : call ∈ h.calls ss)
    (hok : call.answer = .ok ()) : ¬Accepted past call.target := by
  obtain ⟨before, later, hsplit⟩ := List.append_of_mem hcall
  exact fun hpast => ((hr.answers_calls hsplit).accepted_iff.mp hok).2 (hpast.append before)

theorem Records.once (hr : h.Records past) (ss : List Section) :
    (h.calls ss).Pairwise fun call call' =>
      call.answer = .ok () → call'.answer = .ok () → call.target ≠ call'.target := by
  induction ss generalizing h past with
  | nil => exact .nil
  | cons s ss ih =>
    refine .cons (fun call hcall hs hok heq => ?_) (ih (hr.enter s))
    have hnot := (hr.enter s).not_accepted hcall hok
    rw [← heq, show (h.enter s).1 = .ok () from hs] at hnot
    exact hnot (accepted_append_ok.mpr (.inl rfl))

/-- **Calls that are all accepted go on in the order of the sections.** -/
theorem exists_upTo_of_accepted {a : Option Section}
    (hok : ∀ call ∈ (upTo a).calls ss, call.answer = .ok ()) :
    ∃ b, (upTo a).enterAll ss = upTo b ∧
      (upTo b).opened.reverse = (upTo a).opened.reverse ++ ss := by
  induction ss generalizing a with
  | nil => exact ⟨a, rfl, (List.append_nil _).symm⟩
  | cons s ss ih =>
    -- An accepted section is the one behind those opened, so what is opened stays `upTo` a section.
    obtain ⟨hs, hrest⟩ := List.forall_mem_cons.mp hok
    obtain rfl := enter_upTo.mp hs
    rw [enter_upTo_predecessor] at hrest
    obtain ⟨b, hb, hopened⟩ := ih (a := some s) hrest
    refine ⟨b, ?_, ?_⟩
    · rw [← hb, SectionHistory.enterAll, List.foldl_cons, enter_upTo_predecessor]
      rfl
    · rw [hopened, opened_upTo_predecessor, List.append_assoc]
      rfl

/-- Sections opened in order are the first ones, and the next one is missing. -/
theorem opened_upTo_prefix (b : Option Section) :
    (upTo b).opened.reverse <+: Section.all ∧
      (upTo b).firstMissing = Section.all[(upTo b).opened.reverse.length]? := by
  cases b with
  | none => decide
  | some s => cases s <;> decide

/-- **The law of any sequence of calls on a fresh history**: what a call answers is told by the
sections tried and accepted in the calls in front of it. -/
theorem lawful_calls (ss : List Section) : Lawful ss where
  targets := map_target_calls empty ss
  answers hcalls := records_empty.answers_calls hcalls
  once := records_empty.once ss
  active := by
    rw [(records_empty.enterAll ss).active, List.nil_append, ← List.getLast?_map,
      map_target_calls]
  inOrder hok := by
    obtain ⟨b, hb, hopened⟩ := exists_upTo_of_accepted (a := none) hok
    obtain rfl : (upTo b).opened.reverse = ss := hopened
    rw [show empty.enterAll _ = upTo b from hb]
    exact opened_upTo_prefix b

/-- A misplaced section counts as present, and can still be opened in its order. -/
example : empty.calls [.device, .monitor, .connection, .monitor, .monitor] =
    [⟨.device, .ok ()⟩, ⟨.monitor, .error (.missingBefore .monitor .connection)⟩,
      ⟨.connection, .ok ()⟩, ⟨.monitor, .ok ()⟩, ⟨.monitor, .error (.repeated .monitor)⟩] := rfl

end SectionHistory

/-! ## Readings -/

namespace Draft

variable {d : Draft} {g : Segment} {s : Section}

/-- A title enters its section. -/
theorem take_of_title (h : g.title? = some s) : d.take g = d.enter s g.head.position := by
  unfold Segment.title? at h
  split at h
  · rename_i s' w hk
    obtain ⟨hcolon, hs⟩ := Option.ite_none_right_eq_some.mp h
    obtain rfl := Option.some.inj hs
    obtain ⟨t, ht, hkind⟩ := Option.map_eq_some_iff.mp hcolon
    have hexpect := congrArg Prod.fst
      (TokenReader.runOn_expect (TokenKind.only .colon) (.colonExpected s') g.tail)
    unfold take takeHeading
    rw [hk]
    simp only
    rw [hexpect, ht, TokenReader.fitted, TokenKind.only, if_pos hkind]
  · cases h

/-- A segment without a title enters no section. -/
theorem sections_take_of_none (h : g.title? = none) : (d.take g).2.sections = d.sections := by
  rcases d.take_cases g with ⟨fault, ht⟩ | ⟨s, w, hk, -⟩ | ⟨k, w, st, d', -, -, -, ha, ht⟩
  · rw [ht]
  · rcases take_heading hk with ⟨htitle, -⟩ | ⟨fault, ht⟩
    · rw [h] at htitle
      cases htitle
    · rw [ht]
  · rw [ht]
    exact (step_of_apply ha).2

end Draft

/-- **The calls that a reading makes are its titles**, misplaced or not, in the order of the
source. -/
theorem Reading.Passes.sections_eq {r last : Reading} {gs : List Segment}
    (h : r.Passes gs last) :
    last.draft.sections = r.draft.sections.enterAll (gs.filterMap Segment.title?) := by
  induction h with
  | refl r => rfl
  | @segment r last g gs stream _ _ _ ih =>
    rw [ih]
    show (r.draft.take g).2.sections.enterAll _ = _
    cases htitle : g.title? with
    | none => rw [List.filterMap_cons_none htitle, Draft.sections_take_of_none htitle]
    | some s =>
      rw [List.filterMap_cons_some htitle, Draft.take_of_title htitle]
      rfl

end Netlist
