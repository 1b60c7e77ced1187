import Netlist.Proofs.Interning

/-!
# Names over a history of calls

A table of names is asked by three calls: to intern a string, to intern several in order, and for
the identifier of a string without interning it. To answer fast, an interner keeps the table twice:
the names by their identifiers, and the identifiers by their names. Nothing in its type ties the two
together; every call has to keep one the inverse of the other.

## Results

* `NameTable.askAll_snd`: what is left of any calls on a table is the strings that they intern.
* `IndexedTable.Mirrors.askAll`: a table with an index answers any calls as a plain one does.
* `NameTable.records_askAll`: **after any calls, strings and identifiers are one to one, for good.**
-/

namespace Netlist

open NameTable (le_rfl)

/-! ## Calls -/

/-- What a table of names is asked. -/
inductive NameCall
  | intern (name : String)
  | internAll (names : List String)
  /-- Asks for an identifier without interning the name. -/
  | query (name : String)
deriving DecidableEq

/-- The strings that a call interns, in order. -/
def NameCall.interned : NameCall → List String
  | .intern name => [name]
  | .internAll names => names
  | .query _ => []

/-- A string that a table was asked for, and its identifier if it has one. -/
structure NameAnswer where
  name : String
  id? : Option NameId
deriving DecidableEq

/-- What keeps names. -/
class Interner (τ : Type) where
  intern : τ → String → NameId × τ
  internAll : τ → List String → List NameId × τ
  query : τ → String → Option NameId

namespace Interner

variable {τ : Type} [Interner τ]

/-- Asks for the identifiers that a call is about. -/
def ask (t : τ) : NameCall → List NameAnswer × τ
  | .intern name =>
    let (id, t) := intern t name
    ([⟨name, some id⟩], t)
  | .internAll names =>
    let (ids, t) := internAll t names
    (names.zipWith (fun name id => ⟨name, some id⟩) ids, t)
  | .query name => ([⟨name, query t name⟩], t)

/-- Asks one call after the other. -/
def askAll (t : τ) : List NameCall → List NameAnswer × τ
  | [] => ([], t)
  | call :: calls =>
    let (now, t) := ask t call
    let (later, t) := askAll t calls
    (now ++ later, t)

theorem askAll_cons (t : τ) (call : NameCall) (calls : List NameCall) :
    askAll t (call :: calls) =
      ((ask t call).1 ++ (askAll (ask t call).2 calls).1, (askAll (ask t call).2 calls).2) := rfl

end Interner

instance : Interner NameTable := ⟨NameTable.intern, NameTable.internAll, NameTable.query⟩

open Interner (ask askAll askAll_cons)

namespace NameTable

variable {t t' : NameTable} {s : String} {id : NameId}

theorem query_eq_none_iff : t.query s = none ↔ s ∉ t.names := List.idxOf?_eq_none_iff

theorem query_of_mem (h : s ∈ t.names) : t.query s = some (t.idOf s) :=
  (query_eq_some_iff t s _).mpr (text?_idOf h)

/-- A known string is answered with its identifier, and changes nothing. -/
theorem intern_of_query (h : t.query s = some id) : t.intern s = (id, t) := by
  have htext := (query_eq_some_iff t s id).mp h
  have hmem : s ∈ t.names := List.mem_of_getElem? htext
  have hid : t.idOf s = id := (idOf_eq_iff_text? hmem).mpr htext
  exact Prod.ext hid (insert_of_mem hmem)

/-- An unknown string gets the next place. -/
theorem intern_of_query_none (h : t.query s = none) :
    (t.intern s).1 = t.size ∧ (t.intern s).2.names = t.names ++ [s] := by
  have hmem := query_eq_none_iff.mp h
  exact ⟨List.idxOf_eq_length hmem, by rw [names_intern, if_neg hmem]⟩

/-! ## Histories -/

theorem ask_snd (t : NameTable) (call : NameCall) :
    (ask t call).2 = (t.internAll call.interned).2 := by
  cases call <;> rfl

/-- **What calls leave behind is the strings that they intern.** -/
theorem askAll_snd (t : NameTable) (calls : List NameCall) :
    (askAll t calls).2 = (t.internAll (calls.flatMap NameCall.interned)).2 := by
  induction calls generalizing t with
  | nil => rfl
  | cons call calls ih =>
    rw [List.flatMap_cons, internAll_append, ← ask_snd]
    exact ih _

theorem le_askAll (t : NameTable) (calls : List NameCall) : t ≤ (askAll t calls).2 := by
  rw [askAll_snd]
  exact le_internAll t _

/-- What a call answers: a query with what is known, and the others with the identifiers that their
strings have in every later table. -/
theorem ask_fst (t : NameTable) (call : NameCall) (h : (ask t call).2 ≤ t') :
    (∃ name, call = .query name ∧ (ask t call).1 = [⟨name, t.query name⟩]) ∨
      (ask t call).1 = call.interned.map fun name => ⟨name, some (t'.idOf name)⟩ := by
  cases call with
  | intern name =>
    refine .inr ?_
    show [(⟨name, some (t.intern name).1⟩ : NameAnswer)] = [⟨name, some (t'.idOf name)⟩]
    rw [intern_fst h]
  | internAll names =>
    refine .inr ?_
    show names.zipWith _ (t.internAll names).1 = _
    rw [internAll_fst h, List.zipWith_map_right, List.zipWith_self]
    rfl
  | query name => exact .inl ⟨name, rfl, rfl⟩

/-- An identifier that a call answers is that of the string. -/
theorem text?_of_mem_ask {call : NameCall} (h : ⟨s, some id⟩ ∈ (ask t call).1) :
    (ask t call).2.text? id = some s := by
  rcases ask_fst t call le_rfl with ⟨name, rfl, hanswer⟩ | hanswer
  · rw [hanswer] at h
    obtain ⟨rfl, hid⟩ := NameAnswer.mk.inj (List.mem_singleton.mp h)
    exact (query_eq_some_iff t s id).mp hid.symm
  · rw [hanswer] at h
    obtain ⟨name, hname, he⟩ := List.mem_map.mp h
    obtain ⟨rfl, hid⟩ := NameAnswer.mk.inj he
    rw [← Option.some.inj hid]
    refine text?_idOf ?_
    rw [ask_snd]
    exact mem_internAll_iff.mpr (.inr hname)

/-- **An identifier that was answered once is that of the string for good.** -/
theorem text?_of_mem_askAll {calls : List NameCall} (h : ⟨s, some id⟩ ∈ (askAll t calls).1) :
    (askAll t calls).2.text? id = some s := by
  induction calls generalizing t with
  | nil => cases h
  | cons call calls ih =>
    rcases List.mem_append.mp h with h | h
    · exact text?_of_le (le_askAll _ calls) (text?_of_mem_ask h)
    · exact ih h

/-- A string that has an identifier is answered with it. -/
theorem eq_of_mem_ask {call : NameCall} {id? : Option NameId} (h : t.text? id = some s)
    (hanswer : ⟨s, id?⟩ ∈ (ask t call).1) : id? = some id := by
  rcases ask_fst t call le_rfl with ⟨name, rfl, he⟩ | he
  · rw [he] at hanswer
    obtain ⟨rfl, rfl⟩ := NameAnswer.mk.inj (List.mem_singleton.mp hanswer)
    exact (query_eq_some_iff t s id).mpr h
  · rw [he] at hanswer
    obtain ⟨name, -, hname⟩ := List.mem_map.mp hanswer
    obtain ⟨rfl, rfl⟩ := NameAnswer.mk.inj hname
    have hlater : (ask t call).2.text? id = some name := by
      refine text?_of_le ?_ h
      rw [ask_snd]
      exact le_internAll t _
    exact congrArg some ((idOf_eq_iff_text? (List.mem_of_getElem? hlater)).mpr hlater)

/-- **A string that has an identifier is answered with it, whatever is asked before.** -/
theorem eq_of_mem_askAll {calls : List NameCall} {id? : Option NameId} (h : t.text? id = some s)
    (hanswer : ⟨s, id?⟩ ∈ (askAll t calls).1) : id? = some id := by
  induction calls generalizing t with
  | nil => cases hanswer
  | cons call calls ih =>
    rcases List.mem_append.mp hanswer with hanswer | hanswer
    · exact eq_of_mem_ask h hanswer
    · exact ih (text?_of_le (le_askAll t [call]) h) hanswer

/-- Every string that is interned is answered with an identifier. -/
theorem exists_mem_askAll {calls : List NameCall} (h : s ∈ calls.flatMap NameCall.interned) :
    ∃ id, ⟨s, some id⟩ ∈ (askAll t calls).1 := by
  induction calls generalizing t with
  | nil => cases h
  | cons call calls ih =>
    rw [List.flatMap_cons] at h
    rcases List.mem_append.mp h with h | h
    · rcases ask_fst t call le_rfl with ⟨name, rfl, -⟩ | hanswer
      · cases h
      · refine ⟨(ask t call).2.idOf s, ?_⟩
        rw [askAll_cons, hanswer]
        refine List.mem_append_left _ ?_
        exact List.mem_map_of_mem h
    · obtain ⟨id, hid⟩ := ih h (t := (ask t call).2)
      exact ⟨id, List.mem_append_right _ hid⟩

/-- Interning several strings is interning one after the other. -/
theorem internAll_eq_askAll (t : NameTable) (ss : List String) :
    (t.internAll ss).1.map some = (askAll t (ss.map .intern)).1.map NameAnswer.id? ∧
      (t.internAll ss).2 = (askAll t (ss.map .intern)).2 := by
  induction ss generalizing t with
  | nil => exact ⟨rfl, rfl⟩
  | cons s ss ih =>
    obtain ⟨hids, htable⟩ := ih (t.insert s)
    exact ⟨congrArg (some (t.intern s).1 :: ·) hids, htable⟩

end NameTable

/-! ## A table with an index -/

/-- The names by their identifiers, and the identifiers by their names. -/
structure IndexedTable where
  names : Array String
  index : Std.HashMap String NameId

namespace IndexedTable

/-- The table without names. -/
def empty : IndexedTable := ⟨#[], ∅⟩

/-- The identifier of a string that was interned before. -/
def query (i : IndexedTable) (s : String) : Option NameId := i.index[s]?

/-- The identifier of `s`, and the table that holds it. An unknown string is put into both halves. -/
def intern (i : IndexedTable) (s : String) : NameId × IndexedTable :=
  match i.query s with
  | some id => (id, i)
  | none => (i.names.size, ⟨i.names.push s, i.index.insert s i.names.size⟩)

/-- Interns several strings in order. -/
def internAll (i : IndexedTable) : List String → List NameId × IndexedTable
  | [] => ([], i)
  | s :: ss =>
    let (id, i) := i.intern s
    let (ids, i) := i.internAll ss
    (id :: ids, i)

instance : Interner IndexedTable := ⟨intern, internAll, query⟩

/-- The two halves are inverse to each other, and the names are those of a plain table. -/
structure Mirrors (i : IndexedTable) (t : NameTable) : Prop where
  names : i.names.toList = t.names
  inverse : ∀ (s : String) (id : NameId), i.index[s]? = some id ↔ i.names[id]? = some s

variable {i : IndexedTable} {t : NameTable} {s : String}

theorem mirrors_empty : empty.Mirrors .empty where
  names := rfl
  inverse s id := by simp [empty]

theorem Mirrors.query (h : i.Mirrors t) (s : String) : i.query s = t.query s := by
  refine Option.ext fun id => ?_
  unfold IndexedTable.query
  rw [h.inverse, NameTable.query_eq_some_iff, ← Array.getElem?_toList, h.names]
  rfl

/-- **Interning keeps the two halves inverse to each other.** -/
theorem Mirrors.intern (h : i.Mirrors t) (s : String) :
    (i.intern s).1 = (t.intern s).1 ∧ (i.intern s).2.Mirrors (t.intern s).2 := by
  unfold IndexedTable.intern
  rw [h.query]
  cases hq : t.query s with
  | some id =>
    rw [NameTable.intern_of_query hq]
    exact ⟨rfl, h⟩
  | none =>
    obtain ⟨hid, hnames⟩ := NameTable.intern_of_query_none hq
    have hsize : i.names.size = t.size := by rw [← Array.length_toList, h.names]; rfl
    refine ⟨by rw [hid, hsize], by rw [Array.toList_push, h.names, hnames], fun u id => ?_⟩
    have hnew : i.index[s]? = none := (h.query s).trans hq
    rw [Std.HashMap.getElem?_insert, Array.getElem?_push]
    by_cases hu : s = u
    · subst hu
      rw [if_pos (beq_self_eq_true s)]
      split
      · simp [*]
      · rename_i hne
        rw [← h.inverse, hnew]
        exact iff_of_false (fun e => hne (Option.some.inj e).symm) nofun
    · rw [if_neg (by simpa using hu), h.inverse]
      split
      · rename_i he
        rw [he, Array.getElem?_eq_none (Nat.le_refl _)]
        exact iff_of_false nofun fun e => hu (Option.some.inj e)
      · exact Iff.rfl

theorem Mirrors.internAll (h : i.Mirrors t) (ss : List String) :
    (i.internAll ss).1 = (t.internAll ss).1 ∧ (i.internAll ss).2.Mirrors (t.internAll ss).2 := by
  induction ss generalizing i t with
  | nil => exact ⟨rfl, h⟩
  | cons s ss ih =>
    obtain ⟨hid, hs⟩ := h.intern s
    obtain ⟨hids, hss⟩ := ih hs
    exact ⟨List.cons_eq_cons.mpr ⟨hid, hids⟩, hss⟩

theorem Mirrors.ask (h : i.Mirrors t) (call : NameCall) :
    (Interner.ask i call).1 = (Interner.ask t call).1 ∧
      (Interner.ask i call).2.Mirrors (Interner.ask t call).2 := by
  cases call with
  | intern name =>
    obtain ⟨hid, hname⟩ := h.intern name
    exact ⟨congrArg (fun id => [(⟨name, some id⟩ : NameAnswer)]) hid, hname⟩
  | internAll names =>
    obtain ⟨hids, hnames⟩ := h.internAll names
    exact ⟨congrArg (names.zipWith fun name id => (⟨name, some id⟩ : NameAnswer)) hids, hnames⟩
  | query name => exact ⟨congrArg (fun id? => [(⟨name, id?⟩ : NameAnswer)]) (h.query name), h⟩

/-- **A table with an index answers any calls as a plain one does.** -/
theorem Mirrors.askAll (h : i.Mirrors t) (calls : List NameCall) :
    (Interner.askAll i calls).1 = (Interner.askAll t calls).1 ∧
      (Interner.askAll i calls).2.Mirrors (Interner.askAll t calls).2 := by
  induction calls generalizing i t with
  | nil => exact ⟨rfl, h⟩
  | cons call calls ih =>
    obtain ⟨hnow, hcall⟩ := h.ask call
    obtain ⟨hlater, hcalls⟩ := ih hcall
    rw [askAll_cons, askAll_cons]
    exact ⟨congrArg₂ (· ++ ·) hnow hlater, hcalls⟩

end IndexedTable

/-! ## Strings and identifiers -/

namespace NameTable

/-- What a table holds behind calls that interned strings, in this order, and got `answers`. -/
structure Records (t : NameTable) (interned : List String) (answers : List NameAnswer) :
    Prop where
  /-- The strings are those that were interned, each where it came first. -/
  names : t.names = interned.eraseDups
  query : ∀ s, t.query s = if s ∈ interned then some (interned.eraseDups.idxOf s) else none
  text : ∀ id, t.text? id = interned.eraseDups[id]?
  beyond : ∀ id, t.text? id = none ↔ t.size ≤ id
  resolves : ∀ s, (t.intern s).2.text? (t.intern s).1 = some s
  /-- Every string that was interned got an identifier. -/
  complete : ∀ s ∈ interned, ∃ id, ⟨s, some id⟩ ∈ answers
  /-- No two strings got the same one. -/
  injective : ∀ s s' id, ⟨s, some id⟩ ∈ answers → ⟨s', some id⟩ ∈ answers → s = s'
  /-- What was answered is still so, and asking for it changes nothing. -/
  lasting : ∀ s id, ⟨s, some id⟩ ∈ answers →
    t.text? id = some s ∧ t.query s = some id ∧ t.intern s = (id, t)
  unchanged : ∀ s, (s ∈ interned → (t.intern s).2 = t) ∧ (ask t (.query s)).2 = t

theorem records_of_askAll (calls : List NameCall) :
    (askAll empty calls).2.Records (calls.flatMap NameCall.interned) (askAll empty calls).1 := by
  have hnames : (askAll empty calls).2.names = (calls.flatMap NameCall.interned).eraseDups := by
    rw [askAll_snd, names_internAll]
    rfl
  have htext {s : String} {id : NameId} (h : ⟨s, some id⟩ ∈ (askAll empty calls).1) :
      (askAll empty calls).2.text? id = some s := text?_of_mem_askAll h
  have hcomplete {s : String} (h : s ∈ calls.flatMap NameCall.interned) :
      ∃ id, ⟨s, some id⟩ ∈ (askAll empty calls).1 := exists_mem_askAll h
  generalize (askAll empty calls).2 = t at hnames htext
  generalize (askAll empty calls).1 = answers at htext hcomplete
  generalize calls.flatMap NameCall.interned = interned at hnames hcomplete
  have hmem (s : String) : s ∈ t.names ↔ s ∈ interned := by rw [hnames, List.mem_eraseDups]
  exact {
    names := hnames
    query := fun s => by
      split
      · rename_i hs
        rw [query_of_mem ((hmem s).mpr hs), idOf, hnames]
      · rename_i hs
        exact query_eq_none_iff.mpr (mt (hmem s).mp hs)
    text := fun id => by rw [text?, hnames]
    beyond := fun id => List.getElem?_eq_none_iff
    resolves := t.text?_intern
    complete := fun s => hcomplete
    injective := fun s s' id h h' => Option.some.inj ((htext h).symm.trans (htext h'))
    lasting := fun s id h => by
      have hquery := (query_eq_some_iff t s id).mpr (htext h)
      exact ⟨htext h, hquery, intern_of_query hquery⟩
    unchanged := fun s => ⟨fun hs => insert_of_mem ((hmem s).mpr hs), rfl⟩ }

/-- **After any calls, strings and identifiers are one to one, for good.** The table of the calls is
what `Records` says. Whatever is asked later, a string that has an identifier is answered with that
one; several strings are interned as one after the other; and a table with an index, of which every
call has to keep the halves inverse to each other, gives the same answers over the same names. -/
theorem records_askAll (calls later : List NameCall) (ss : List String) :
    let now := askAll empty calls
    let indexed := askAll IndexedTable.empty calls
    now.2.Records (calls.flatMap NameCall.interned) now.1 ∧
      (∀ s id id?, ⟨s, some id⟩ ∈ now.1 → ⟨s, id?⟩ ∈ (askAll now.2 later).1 → id? = some id) ∧
      (now.2.internAll ss).1.map some = (askAll now.2 (ss.map .intern)).1.map NameAnswer.id? ∧
      (now.2.internAll ss).2 = (askAll now.2 (ss.map .intern)).2 ∧
      indexed.1 = now.1 ∧ indexed.2.Mirrors now.2 := by
  intro now indexed
  obtain ⟨hids, htable⟩ := now.2.internAll_eq_askAll ss
  obtain ⟨hanswers, hmirrors⟩ := IndexedTable.mirrors_empty.askAll calls
  exact ⟨records_of_askAll calls, fun s id id? h => eq_of_mem_askAll (text?_of_mem_askAll h), hids,
    htable, hanswers, hmirrors⟩

end NameTable

end Netlist
