/-!
# Interned names

A `NameTable` lists distinct strings; the identifier of a string is its place in the list. Strings
are only ever added at the end, so an identifier never changes its meaning. The identifier is found
by the place in the list; the hash index that `lookup` keeps beside the vector of strings gives the
same answers (`Netlist.Proofs.Indexing`).

## Results

* `names_intern`: interning appends an unknown string and changes nothing else.
* `text?_intern`: the answered identifier resolves to the interned string.
* `query_eq_some_iff`: a string is found under an identifier iff that identifier resolves to it.
-/

namespace Netlist

/-- The place of a string in a `NameTable`. -/
abbrev NameId := Nat

/-- Distinct strings in the order of their first interning. -/
structure NameTable where
  names : List String
  distinct : names.Nodup

namespace NameTable

/-- The table without names. -/
def empty : NameTable := ⟨[], List.nodup_nil⟩

/-- The number of names (`len`). -/
def size (t : NameTable) : Nat := t.names.length

/-- Whether the table has no name (`is_empty`). -/
def isEmpty (t : NameTable) : Bool := t.names.isEmpty

/-- The identifier of a string that was interned before (`query`). -/
def query (t : NameTable) (s : String) : Option NameId := t.names.idxOf? s

/-- The string under an identifier that was assigned before (`get_name_string`). -/
def text? (t : NameTable) (id : NameId) : Option String := t.names[id]?

/-- The table with `s`, at the end unless it is there already. -/
def insert (t : NameTable) (s : String) : NameTable :=
  if h : s ∈ t.names then t
  else
    { names := t.names ++ [s]
      distinct := List.nodup_append.mpr ⟨t.distinct, List.pairwise_singleton _ s,
        fun _ ha _ hb hab => h (List.mem_singleton.mp hb ▸ hab ▸ ha)⟩ }

/-- The identifier of `s`, and the table that holds it (`lookup`). An unknown string gets the next
place. -/
def intern (t : NameTable) (s : String) : NameId × NameTable :=
  (t.names.idxOf s, t.insert s)

/-- Interns several strings in order (`lookup_all`). -/
def internAll (t : NameTable) : List String → List NameId × NameTable
  | [] => ([], t)
  | s :: ss =>
    let (id, t) := t.intern s
    let (ids, t) := t.internAll ss
    (id :: ids, t)

/-! ## What interning does -/

theorem names_insert (t : NameTable) (s : String) :
    (t.insert s).names = if s ∈ t.names then t.names else t.names ++ [s] := by
  unfold insert
  split <;> rfl

theorem names_intern (t : NameTable) (s : String) :
    (t.intern s).2.names = if s ∈ t.names then t.names else t.names ++ [s] :=
  names_insert t s

theorem text?_intern (t : NameTable) (s : String) :
    (t.intern s).2.text? (t.intern s).1 = some s := by
  show (t.insert s).names[t.names.idxOf s]? = some s
  rw [names_insert]
  split
  · rename_i h
    rw [List.getElem?_eq_getElem (List.idxOf_lt_length_of_mem h), List.getElem_idxOf]
  · rename_i h
    rw [List.idxOf_eq_length h, List.getElem?_append_right (Nat.le_refl _), Nat.sub_self]
    rfl

theorem query_eq_some_iff (t : NameTable) (s : String) (id : NameId) :
    t.query s = some id ↔ t.text? id = some s := by
  unfold query text?
  rw [List.idxOf?_eq_some_iff, List.getElem?_eq_some_iff]
  constructor
  · rintro ⟨h, hs, -⟩
    exact ⟨h, hs⟩
  · rintro ⟨h, hs⟩
    refine ⟨h, hs, fun j hj hjs => ?_⟩
    exact List.pairwise_iff_getElem.mp t.distinct j id (Nat.lt_trans hj h) h hj (hjs.trans hs.symm)

end NameTable

end Netlist
