import Mathlib.Data.List.Basic
import Netlist.Proofs.Refusals

/-!
# The wording of problems

A message is put together from fixed texts and the names that it shows. The fixed text that it opens
with tells most problems apart, whatever the names are; where it does not, the text at the end does.

## Results

* `Problem.prefix_message`: every message starts with the opening of its problem.
* `Problem.eq_of_message`: a message about what has to follow a token tells its problem.
* `Problem.madeOf_message`: a message is made of fixed texts and the names that it shows.
* `Problem.plain_message`: no message has a question mark but from those names.
-/

namespace Netlist

namespace Problem

/-! ## Texts -/

section Texts

variable {a b c : String} {as bs : List Char}

theorem prefix_toList_append (a b : String) : a.toList <+: (a ++ b).toList := by
  rw [String.toList_append]
  exact List.prefix_append _ _

theorem prefix_append_right (h : a.toList <+: b.toList) (c : String) :
    a.toList <+: (b ++ c).toList := h.trans (prefix_toList_append b c)

theorem suffix_toList_append (a b : String) : b.toList <:+ (a ++ b).toList := by
  rw [String.toList_append]
  exact List.suffix_append _ _

/-- Texts of which one starts with the other. -/
def Comparable (a b : String) : Prop := a.toList <+: b.toList ∨ b.toList <+: a.toList

theorem not_comparable_ofList (h : ¬(as <+: bs ∨ bs <+: as)) :
    ¬Comparable (String.ofList as) (String.ofList bs) := by
  unfold Comparable
  rwa [String.toList_ofList, String.toList_ofList]

theorem prefix_ofList (h : as <+: bs) :
    (String.ofList as).toList <+: (String.ofList bs).toList := by
  rwa [String.toList_ofList, String.toList_ofList]

end Texts

/-! ## How messages open -/

/-- The fixed text that a message opens with. -/
def opening : Problem → String
  | .colonExpected _ => "A colon is expected after "
  | .misplacedSection (.repeated _) => "There are multiple "
  | .misplacedSection (.missingBefore _ _) => "There is no "
  | .invalidName => "Invalid name: a name is a letter followed by letters or digits, "
  | .nameAlreadyUsed _ => "The name "
  | .deviceUndefined _ => "The device "
  | .dtypeDotExpected _ | .singleOutput _ | .notAnInput _ _ => "'"
  | .inputAlreadyConnected _ _ => "The input "
  | .cannotConnect _ => "Cannot connect: "
  | .sectionAbsent _ => "No valid "
  | .inputsUnconnected _ => "Some inputs are not connected: "
  | .devicesUnused _ => "Some devices are never used: "
  | p => p.message

/-- **Every message starts with the opening of its problem.** -/
theorem prefix_message (p : Problem) : p.opening.toList <+: p.message.toList := by
  have hquoted (s b : String) : "'".toList <+: (quoted s ++ b).toList :=
    prefix_append_right (prefix_append_right (prefix_toList_append _ s) _) b
  have hframed (a s b : String) : a.toList <+: (a ++ s ++ b).toList :=
    prefix_append_right (prefix_toList_append a s) b
  cases p with
  | colonExpected s => exact prefix_toList_append _ _
  | misplacedSection fault =>
    cases fault with
    | repeated s => exact hframed _ _ _
    | missingBefore s missing => exact prefix_append_right (hframed _ _ _) _
  | invalidName => exact prefix_toList_append _ _
  | nameAlreadyUsed name => exact hframed _ _ _
  | deviceUndefined name => exact hframed _ _ _
  | dtypeDotExpected name => exact hquoted name _
  | singleOutput name => exact hquoted name _
  | notAnInput pin device => exact prefix_append_right (hquoted pin _) _
  | inputAlreadyConnected device pin => exact hframed _ _ _
  | cannotConnect reason => exact prefix_toList_append _ _
  | sectionAbsent s => exact hframed _ _ _
  | inputsUnconnected inputs => exact prefix_toList_append _ _
  | devicesUnused names => exact prefix_toList_append _ _
  | _ => exact List.prefix_refl _

theorem comparable_opening {p : Problem} {text : String}
    (h : text.toList <+: p.message.toList) : Comparable text p.opening :=
  List.prefix_or_prefix_of_prefix h p.prefix_message

/-! ## Telling problems apart -/

section Apart

variable {p q : Problem} {ks : List TokenKind}

/-- The problems whose messages open with an article. -/
theorem cases_of_article (h : Comparable "A" q.opening) :
    (∃ s, q = .colonExpected s) ∨ q = .dtypePinExpected ∨ q = .arrowExpected ∨
      q = .inputDotExpected ∨ q = .inputPinExpected := by
  cases q with
  | colonExpected s => exact .inl ⟨s, rfl⟩
  | dtypePinExpected => exact .inr (.inl rfl)
  | arrowExpected => exact .inr (.inr (.inl rfl))
  | inputDotExpected => exact .inr (.inr (.inr (.inl rfl)))
  | inputPinExpected => exact .inr (.inr (.inr (.inr rfl)))
  | misplacedSection fault => cases fault <;> exact absurd h (not_comparable_ofList (by decide))
  | outsideSection k => cases k <;> exact absurd h (not_comparable_ofList (by decide))
  | numberExpected form => cases form <;> exact absurd h (not_comparable_ofList (by decide))
  | invalidQualifier form? =>
    rcases form? with _ | _ | _ <;> exact absurd h (not_comparable_ofList (by decide))
  | _ => exact absurd h (not_comparable_ofList (by decide))

/-- The problems whose messages open with a quoted name. -/
theorem cases_of_quote (h : Comparable "'" q.opening) :
    (∃ name, q = .dtypeDotExpected name) ∨ (∃ name, q = .singleOutput name) ∨
      ∃ pin device, q = .notAnInput pin device := by
  cases q with
  | dtypeDotExpected name => exact .inl ⟨name, rfl⟩
  | singleOutput name => exact .inr (.inl ⟨name, rfl⟩)
  | notAnInput pin device => exact .inr (.inr ⟨pin, device, rfl⟩)
  | misplacedSection fault => cases fault <;> exact absurd h (not_comparable_ofList (by decide))
  | outsideSection k => cases k <;> exact absurd h (not_comparable_ofList (by decide))
  | numberExpected form => cases form <;> exact absurd h (not_comparable_ofList (by decide))
  | invalidQualifier form? =>
    rcases form? with _ | _ | _ <;> exact absurd h (not_comparable_ofList (by decide))
  | _ => exact absurd h (not_comparable_ofList (by decide))

/-- Quoted names in front of the same text are the same. -/
theorem eq_of_quoted {a b text : String} (h : quoted a ++ text = quoted b ++ text) : a = b := by
  simpa [quoted, ← String.toList_inj] using h

theorem not_suffix_or_suffix {a b m : String} {as bs : List Char} (ha : String.ofList as = a)
    (hb : String.ofList bs = b) (hno : ¬(as <:+ bs ∨ bs <:+ as)) (hm : a.toList <:+ m.toList) :
    ¬b.toList <:+ m.toList := by
  subst ha hb
  rw [String.toList_ofList] at hm ⊢
  exact fun h => hno (List.suffix_or_suffix_of_suffix hm h)

/-- A message about a missing dot of a D-type tells the device. -/
theorem eq_of_message_dtypeDot {name : String}
    (h : q.message = (dtypeDotExpected name).message) : q = .dtypeDotExpected name := by
  have hquote := comparable_opening (h ▸ (dtypeDotExpected name).prefix_message)
  have hend : " is a DTYPE, a dot followed by the output pin Q or QBAR is expected here".toList <:+
      q.message.toList := h ▸ suffix_toList_append (quoted name) _
  rcases cases_of_quote hquote with ⟨other, rfl⟩ | ⟨other, rfl⟩ | ⟨pin, device, rfl⟩
  · rw [eq_of_quoted h]
  · exact absurd (suffix_toList_append (quoted other) _)
      (not_suffix_or_suffix rfl rfl (by decide) hend)
  · have hquoted : "'".toList <:+ (notAnInput pin device).message.toList :=
      (suffix_toList_append ("'" ++ device) "'").trans (suffix_toList_append _ (quoted device))
    exact absurd hquoted (not_suffix_or_suffix rfl rfl (by decide) hend)

/-- **A message about what has to follow a token tells its problem.** -/
theorem eq_of_message (hp : p.Glued ks) (h : q.message = p.message) : q = p := by
  have hopening : Comparable p.opening q.opening := comparable_opening (h ▸ p.prefix_message)
  have hne {as bs : List Char} (hopening : Comparable (String.ofList as) (String.ofList bs))
      (hno : ¬(as <+: bs ∨ bs <+: as)) : False := not_comparable_ofList hno hopening
  have harticle (hA : "A".toList <+: p.message.toList) := cases_of_article
    (comparable_opening (h ▸ hA))
  cases hp with
  | dtypeDot => exact eq_of_message_dtypeDot h
  | dtypePin =>
    rcases harticle (prefix_ofList (by decide)) with ⟨s, rfl⟩ | rfl | rfl | rfl | rfl
    all_goals first | rfl | exact (hne hopening (by decide)).elim
  | inputDot =>
    rcases harticle (prefix_ofList (by decide)) with ⟨s, rfl⟩ | rfl | rfl | rfl | rfl
    all_goals first | rfl | exact (hne hopening (by decide)).elim
  | inputPin =>
    rcases harticle (prefix_ofList (by decide)) with ⟨s, rfl⟩ | rfl | rfl | rfl | rfl
    all_goals first | rfl | exact (hne hopening (by decide)).elim

end Apart

/-! ## What messages show -/

section Shown

variable {ok : Char → Prop} {a b c : String} {p : Problem}

/-- A text that is made of certain characters. -/
def MadeOf (ok : Char → Prop) (a : String) : Prop := ∀ c ∈ a.toList, ok c

theorem MadeOf.append (ha : MadeOf ok a) (hb : MadeOf ok b) : MadeOf ok (a ++ b) := by
  intro c hc
  rw [String.toList_append] at hc
  exact (List.mem_append.mp hc).elim (ha c) (hb c)

theorem MadeOf.framed (ha : MadeOf ok a) (hb : MadeOf ok b) (hc : MadeOf ok c) :
    MadeOf ok (a ++ b ++ c) := (ha.append hb).append hc

/-- The characters of fixed texts: those of ASCII that are printed, but for the question mark. -/
def isFixed (c : Char) : Bool := 0x20 ≤ c.toNat && c.toNat ≤ 0x7E && c.toNat != 0x3F

variable (hok : ∀ c, isFixed c = true → ok c)

include hok

theorem madeOf_ofList {as : List Char} (h : as.all isFixed = true) :
    MadeOf ok (String.ofList as) := by
  intro c hc
  rw [String.toList_ofList] at hc
  exact hok c (List.all_eq_true.mp h c hc)

theorem madeOf_quoted (h : MadeOf ok a) : MadeOf ok (quoted a) :=
  .framed (madeOf_ofList hok (by decide)) h (madeOf_ofList hok (by decide))

theorem madeOf_dotted (ha : MadeOf ok a) (hb : MadeOf ok b) : MadeOf ok (dotted a b) :=
  .framed ha (madeOf_ofList hok (by decide)) hb

theorem madeOf_intercalate {texts : List String} (h : ∀ w ∈ texts, MadeOf ok w) :
    MadeOf ok (String.intercalate ", " texts) := by
  induction texts with
  | nil => exact madeOf_ofList hok (by decide)
  | cons w ws ih =>
    obtain ⟨hw, hws⟩ := List.forall_mem_cons.mp h
    cases ws with
    | nil => exact String.intercalate_singleton ▸ hw
    | cons v vs =>
      rw [String.intercalate_cons_cons]
      exact .framed hw (madeOf_ofList hok (by decide)) (ih hws)

theorem madeOf_heading (s : Section) : MadeOf ok s.heading := by
  cases s <;> exact madeOf_ofList hok (by decide)

/-- **A message is made of fixed texts and the names that it shows.** -/
theorem madeOf_message (h : ∀ name ∈ p.names, MadeOf ok name) : MadeOf ok p.message := by
  have hfixed {as : List Char} (h : as.all isFixed = true) := madeOf_ofList hok h
  cases p with
  | colonExpected s => exact .append (hfixed (by decide)) (madeOf_heading hok s)
  | sectionAbsent s =>
    exact .framed (hfixed (by decide)) (madeOf_heading hok s) (hfixed (by decide))
  | misplacedSection fault =>
    cases fault with
    | repeated s =>
      exact .framed (hfixed (by decide)) (madeOf_heading hok s) (hfixed (by decide))
    | missingBefore s missing =>
      exact .append (.framed (hfixed (by decide)) (madeOf_heading hok missing)
        (hfixed (by decide))) (madeOf_heading hok s)
  | invalidName => exact .append (hfixed (by decide)) (hfixed (by decide))
  | nameAlreadyUsed name | deviceUndefined name =>
    exact .framed (hfixed (by decide)) (madeOf_quoted hok (h name (by simp [names])))
      (hfixed (by decide))
  | dtypeDotExpected name | singleOutput name =>
    exact .append (madeOf_quoted hok (h name (by simp [names]))) (hfixed (by decide))
  | notAnInput pin device =>
    exact .framed (madeOf_quoted hok (h pin (by simp [names]))) (hfixed (by decide))
      (madeOf_quoted hok (h device (by simp [names])))
  | inputAlreadyConnected device pin =>
    exact .framed (hfixed (by decide)) (madeOf_quoted hok (madeOf_dotted hok
      (h device (by simp [names])) (h pin (by simp [names])))) (hfixed (by decide))
  | inputsUnconnected inputs =>
    refine .append (hfixed (by decide)) (madeOf_intercalate hok fun w hw => ?_)
    obtain ⟨i, hi, rfl⟩ := List.mem_map.mp hw
    have hnames : ∀ name ∈ [i.1, i.2], MadeOf ok name := fun name hname =>
      h name (List.mem_flatMap.mpr ⟨i, hi, hname⟩)
    exact madeOf_dotted hok (hnames i.1 (by simp)) (hnames i.2 (by simp))
  | devicesUnused names =>
    exact .append (hfixed (by decide)) (madeOf_intercalate hok h)
  | cannotConnect reason =>
    cases reason <;> exact .append (hfixed (by decide)) (hfixed (by decide))
  | outsideSection k => cases k <;> exact hfixed (by decide)
  | numberExpected form => cases form <;> exact hfixed (by decide)
  | invalidQualifier form? => rcases form? with _ | _ | _ <;> exact hfixed (by decide)
  | _ => exact hfixed (by decide)

omit hok

/-- A text without a question mark. -/
def Plain (a : String) : Prop := '?' ∉ a.toList

theorem plain_iff_madeOf : Plain a ↔ MadeOf (· ≠ '?') a := by
  simp [Plain, MadeOf, List.forall_mem_ne']

/-- **No message has a question mark** but from the names that it shows. -/
theorem plain_message (h : ∀ name ∈ p.names, Plain name) : Plain p.message := by
  have hok : ∀ c, isFixed c = true → c ≠ '?' := by
    rintro c hc rfl
    cases hc
  exact plain_iff_madeOf.mpr (madeOf_message hok fun name hname =>
    plain_iff_madeOf.mp (h name hname))

end Shown

end Problem

end Netlist
