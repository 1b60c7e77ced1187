/-!
# Maps with sorted keys

A `SortedMap κ α` lists its entries with strictly increasing keys. A content then has one
representation, the entries come out in key order, and equal look-ups mean equal maps. The
registries of devices, drivers and monitors and the set of unused devices are kept in such maps.

## Results

* `SortedMap.get?_insert`, `SortedMap.get?_modify`, `SortedMap.get?_erase`: what each operation
  does to a look-up.
* `SortedMap.ext_get?`: two maps with the same look-ups are equal.
-/

namespace Netlist

/-- Keys are totally and strictly ordered by `<`. -/
class KeyOrder (κ : Type) [LT κ] : Prop where
  irrefl : ∀ a : κ, ¬ a < a
  trans : ∀ {a b c : κ}, a < b → b < c → a < c
  connected : ∀ {a b : κ}, ¬ a < b → ¬ b < a → a = b

instance : KeyOrder Nat where
  irrefl := Nat.lt_irrefl
  trans := Nat.lt_trans
  connected h h' := Nat.le_antisymm (Nat.le_of_not_lt h') (Nat.le_of_not_lt h)

/-! ## Look-ups in a list of entries -/

namespace SortedMap

section Entries

variable {κ α : Type} [DecidableEq κ]

theorem lookup_cons_ite (e : κ × α) (es : List (κ × α)) (k : κ) :
    (e :: es).lookup k = if k = e.1 then some e.2 else es.lookup k := by
  rw [List.lookup_cons]
  by_cases h : k = e.1
  · rw [if_pos h, beq_iff_eq.mpr h]
  · rw [if_neg h, beq_eq_false_iff_ne.mpr h]

theorem mem_of_lookup {k : κ} {v : α} :
    ∀ {es : List (κ × α)}, es.lookup k = some v → (k, v) ∈ es
  | [], h => absurd h (by simp)
  | e :: es, h => by
    rw [lookup_cons_ite] at h
    split at h
    · rename_i hk
      exact List.mem_cons.mpr (Or.inl (Prod.ext hk (Option.some.inj h).symm))
    · exact List.mem_cons_of_mem e (mem_of_lookup h)

theorem lookup_map_value (f : κ × α → α) (j : κ) :
    ∀ es : List (κ × α),
      (es.map fun e => (e.1, f e)).lookup j = (es.lookup j).map fun v => f (j, v)
  | [] => rfl
  | e :: es => by
    rw [List.map_cons, lookup_cons_ite, lookup_cons_ite]
    split
    · rename_i hj
      rw [hj]
      rfl
    · exact lookup_map_value f j es

theorem lookup_filter_ne (k j : κ) :
    ∀ es : List (κ × α),
      (es.filter fun e => e.1 ≠ k).lookup j = if j = k then none else es.lookup j
  | [] => by simp
  | e :: es => by
    rw [List.filter_cons]
    by_cases he : e.1 = k
    · rw [if_neg (by simp [he]), lookup_filter_ne k j es, lookup_cons_ite]
      by_cases hj : j = k
      · simp [hj]
      · rw [if_neg hj, if_neg hj, if_neg (he ▸ hj)]
    · rw [if_pos (by simp [he]), lookup_cons_ite, lookup_cons_ite, lookup_filter_ne k j es]
      by_cases hj : j = e.1
      · rw [if_pos hj, if_pos hj, if_neg (hj ▸ he)]
      · rw [if_neg hj, if_neg hj]

end Entries

end SortedMap

/-! ## Maps -/

/-- Entries in strictly increasing order of their keys. -/
structure SortedMap (κ α : Type) [LT κ] where
  entries : List (κ × α)
  sorted : entries.Pairwise (fun a b => a.1 < b.1)

namespace SortedMap

variable {κ α : Type} [LT κ]

/-- The map without entries. -/
def empty : SortedMap κ α := ⟨[], List.Pairwise.nil⟩

/-- The keys, in increasing order. -/
def keys (m : SortedMap κ α) : List κ := m.entries.map Prod.fst

/-- The values, in the order of their keys. -/
def values (m : SortedMap κ α) : List α := m.entries.map Prod.snd

/-- The number of entries. -/
def size (m : SortedMap κ α) : Nat := m.entries.length

/-- Whether the map has no entry. -/
def isEmpty (m : SortedMap κ α) : Bool := m.entries.isEmpty

/-! ## Look-ups -/

section Lookup

variable [DecidableEq κ]

/-- The value under a key. -/
def get? (m : SortedMap κ α) (k : κ) : Option α := m.entries.lookup k

/-- Whether a key has a value. -/
def contains (m : SortedMap κ α) (k : κ) : Bool := (m.get? k).isSome

theorem lookup_eq_none_of_lt [KeyOrder κ] {k : κ} :
    ∀ {es : List (κ × α)}, (∀ e ∈ es, k < e.1) → es.lookup k = none
  | [], _ => rfl
  | e :: es, h => by
    have : k ≠ e.1 := fun hk => KeyOrder.irrefl k (by
      have hlt := h e List.mem_cons_self
      rwa [← hk] at hlt)
    rw [lookup_cons_ite, if_neg this]
    exact lookup_eq_none_of_lt fun d hd => h d (List.mem_cons_of_mem e hd)

theorem eq_of_lookup [KeyOrder κ] :
    ∀ {es fs : List (κ × α)}, es.Pairwise (fun a b => a.1 < b.1) →
      fs.Pairwise (fun a b => a.1 < b.1) → (∀ k, es.lookup k = fs.lookup k) → es = fs
  | [], [], _, _, _ => rfl
  | [], f :: _, _, _, h => by
    have := h f.1
    rw [lookup_cons_ite, if_pos rfl] at this
    exact absurd this (by simp)
  | e :: _, [], _, _, h => by
    have := h e.1
    rw [lookup_cons_ite, if_pos rfl] at this
    exact absurd this (by simp)
  | e :: es, f :: fs, he, hf, h => by
    have he' := List.pairwise_cons.mp he
    have hf' := List.pairwise_cons.mp hf
    have hkey : e.1 = f.1 := by
      refine KeyOrder.connected (fun hlt => ?_) (fun hlt => ?_)
      · have hk := h e.1
        have hnone : (f :: fs).lookup e.1 = none := lookup_eq_none_of_lt fun d hd => by
          rcases List.mem_cons.mp hd with rfl | hd
          · exact hlt
          · exact KeyOrder.trans hlt (hf'.1 d hd)
        rw [hnone, lookup_cons_ite, if_pos rfl] at hk
        exact absurd hk (by simp)
      · have hk := h f.1
        have hnone : (e :: es).lookup f.1 = none := lookup_eq_none_of_lt fun d hd => by
          rcases List.mem_cons.mp hd with rfl | hd
          · exact hlt
          · exact KeyOrder.trans hlt (he'.1 d hd)
        rw [hnone, lookup_cons_ite, if_pos rfl] at hk
        exact absurd hk (by simp)
    have hval : e.2 = f.2 := by
      have hk := h e.1
      rw [lookup_cons_ite, if_pos rfl, lookup_cons_ite, if_pos hkey] at hk
      exact Option.some.inj hk
    have htail : es = fs := eq_of_lookup he'.2 hf'.2 fun k => by
      by_cases hk : k = e.1
      · rw [hk, lookup_eq_none_of_lt he'.1, hkey, lookup_eq_none_of_lt hf'.1]
      · have := h k
        rwa [lookup_cons_ite, if_neg hk, lookup_cons_ite, if_neg (hkey ▸ hk)] at this
    rw [htail, Prod.ext hkey hval]

/-- **A map is its look-ups.** -/
theorem ext_get? [KeyOrder κ] {m n : SortedMap κ α} (h : ∀ k, m.get? k = n.get? k) : m = n := by
  obtain ⟨es, hes⟩ := m
  obtain ⟨fs, hfs⟩ := n
  have : es = fs := eq_of_lookup hes hfs h
  subst this
  rfl

end Lookup

/-! ## Changing the value under a key -/

theorem pairwise_map_value {es : List (κ × α)} (h : es.Pairwise (fun a b => a.1 < b.1))
    (f : κ × α → α) : (es.map fun e => (e.1, f e)).Pairwise (fun a b => a.1 < b.1) := by
  rw [List.pairwise_map]
  exact h

section Modify

variable [DecidableEq κ]

/-- Applies `f` to the value under `k`, if there is one. -/
def modify (m : SortedMap κ α) (k : κ) (f : α → α) : SortedMap κ α where
  entries := m.entries.map fun e => (e.1, if e.1 = k then f e.2 else e.2)
  sorted := pairwise_map_value m.sorted _

theorem get?_modify (m : SortedMap κ α) (k : κ) (f : α → α) (j : κ) :
    (m.modify k f).get? j = if j = k then (m.get? j).map f else m.get? j := by
  unfold modify get?
  rw [lookup_map_value (fun e => if e.1 = k then f e.2 else e.2)]
  by_cases h : j = k
  · simp [h]
  · simp [h]

/-! ## Removing a key -/

/-- Drops the entry under `k`, if there is one. -/
def erase (m : SortedMap κ α) (k : κ) : SortedMap κ α where
  entries := m.entries.filter fun e => e.1 ≠ k
  sorted := m.sorted.filter _

theorem get?_erase (m : SortedMap κ α) (k j : κ) :
    (m.erase k).get? j = if j = k then none else m.get? j :=
  lookup_filter_ne k j m.entries

end Modify

/-! ## Adding a key -/

section Insert

variable [DecidableLT κ]

/-- Puts an entry at its place, in place of an older entry under the same key. -/
def insertEntry (k : κ) (v : α) : List (κ × α) → List (κ × α)
  | [] => [(k, v)]
  | e :: es =>
    if k < e.1 then (k, v) :: e :: es
    else if e.1 < k then e :: insertEntry k v es
    else (k, v) :: es

theorem mem_insertEntry {k : κ} {v : α} {e : κ × α} :
    ∀ {es : List (κ × α)}, e ∈ insertEntry k v es → e = (k, v) ∨ e ∈ es
  | [], h => Or.inl (List.mem_singleton.mp h)
  | d :: ds, h => by
    unfold insertEntry at h
    split at h
    · exact List.mem_cons.mp h
    · split at h
      · rcases List.mem_cons.mp h with h | h
        · exact Or.inr (h ▸ List.mem_cons_self)
        · exact (mem_insertEntry h).imp id (List.mem_cons_of_mem d)
      · exact (List.mem_cons.mp h).imp id (List.mem_cons_of_mem d)

variable [KeyOrder κ]

theorem pairwise_insertEntry (k : κ) (v : α) :
    ∀ {es : List (κ × α)}, es.Pairwise (fun a b => a.1 < b.1) →
      (insertEntry k v es).Pairwise (fun a b => a.1 < b.1)
  | [], _ => List.pairwise_singleton _ _
  | d :: ds, h => by
    have hd := List.pairwise_cons.mp h
    unfold insertEntry
    split
    · rename_i hk
      refine List.pairwise_cons.mpr ⟨fun e he => ?_, h⟩
      rcases List.mem_cons.mp he with rfl | he
      · exact hk
      · exact KeyOrder.trans hk (hd.1 e he)
    · rename_i hk
      split
      · rename_i hk'
        refine List.pairwise_cons.mpr ⟨fun e he => ?_, pairwise_insertEntry k v hd.2⟩
        rcases mem_insertEntry he with rfl | he
        · exact hk'
        · exact hd.1 e he
      · rename_i hk'
        have : d.1 = k := KeyOrder.connected hk' hk
        exact List.pairwise_cons.mpr ⟨fun e he => this ▸ hd.1 e he, hd.2⟩

/-- Sets the value under `k`. -/
def insert (m : SortedMap κ α) (k : κ) (v : α) : SortedMap κ α where
  entries := insertEntry k v m.entries
  sorted := pairwise_insertEntry k v m.sorted

theorem lookup_insertEntry [DecidableEq κ] (k : κ) (v : α) (j : κ) :
    ∀ es : List (κ × α), (insertEntry k v es).lookup j = if j = k then some v else es.lookup j
  | [] => by
    unfold insertEntry
    rw [lookup_cons_ite]
  | e :: es => by
    unfold insertEntry
    split
    · rw [lookup_cons_ite]
    · rename_i hk
      split
      · rename_i hk'
        rw [lookup_cons_ite, lookup_cons_ite, lookup_insertEntry k v j es]
        by_cases hj : j = k
        · rw [if_pos hj, if_pos hj, if_neg fun he => KeyOrder.irrefl e.1 (by
            rw [← hj, he] at hk'
            exact hk')]
        · rw [if_neg hj, if_neg hj]
      · rename_i hk'
        have : e.1 = k := KeyOrder.connected hk' hk
        rw [lookup_cons_ite, lookup_cons_ite]
        by_cases hj : j = k
        · rw [if_pos hj, if_pos hj]
        · rw [if_neg hj, if_neg hj, if_neg (this ▸ hj)]

theorem get?_insert [DecidableEq κ] (m : SortedMap κ α) (k : κ) (v : α) (j : κ) :
    (m.insert k v).get? j = if j = k then some v else m.get? j :=
  lookup_insertEntry k v j m.entries

end Insert

end SortedMap

/-! ## Sets -/

/-- A set of keys, listed in increasing order. -/
abbrev SortedSet (κ : Type) [LT κ] := SortedMap κ Unit

namespace SortedSet

variable {κ : Type} [LT κ]

/-- The set with `k`. -/
def add [DecidableLT κ] [KeyOrder κ] (s : SortedSet κ) (k : κ) : SortedSet κ :=
  SortedMap.insert s k ()

/-- The set without `k`. -/
def remove [DecidableEq κ] (s : SortedSet κ) (k : κ) : SortedSet κ :=
  SortedMap.erase s k

end SortedSet

end Netlist
