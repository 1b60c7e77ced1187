import Mathlib.Algebra.BigOperators.Group.List.Basic
import Mathlib.Algebra.GroupWithZero.Nat
import Netlist.SortedMap

/-!
# Entries of sorted maps

What the entries of a map say about its look-ups, and how the entries change when a key is added or
the value under a key is changed.

## Results

* `SortedMap.mem_entries_iff`: the entries are the look-ups that succeed.
* `SortedMap.perm_entries_insert`: a new key adds one entry.
* `SortedMap.insert_comm`, `SortedMap.modify_comm`: what is done under two keys commutes.
* `SortedMap.sum_modify`: a change under one key changes a sum over all values by the difference.
* `SortedSet.contains_add`, `SortedSet.contains_remove`: what is in a set that was changed.
-/

namespace Netlist

theorem KeyOrder.ne_of_lt {κ : Type} [LT κ] [KeyOrder κ] {a b : κ} (h : a < b) : a ≠ b :=
  fun he => KeyOrder.irrefl b (he ▸ h)

namespace SortedMap

variable {κ α : Type} [LT κ]

theorem nodup_keys [KeyOrder κ] (m : SortedMap κ α) : m.keys.Nodup := by
  unfold keys List.Nodup
  rw [List.pairwise_map]
  exact m.sorted.imp KeyOrder.ne_of_lt

/-! ## Look-ups -/

section Lookup

variable [DecidableEq κ]

@[simp] theorem get?_empty (k : κ) : (empty : SortedMap κ α).get? k = none := rfl

theorem contains_iff {m : SortedMap κ α} {k : κ} :
    m.contains k = true ↔ ∃ v, m.get? k = some v :=
  Option.isSome_iff_exists

theorem contains_eq_false_iff {m : SortedMap κ α} {k : κ} :
    m.contains k = false ↔ m.get? k = none := by
  unfold contains
  cases m.get? k <;> simp

variable [KeyOrder κ]

theorem lookup_of_mem {k : κ} {v : α} :
    ∀ {es : List (κ × α)}, es.Pairwise (fun a b => a.1 < b.1) → (k, v) ∈ es →
      es.lookup k = some v
  | [], _, h => absurd h List.not_mem_nil
  | e :: es, hs, h => by
    have hs' := List.pairwise_cons.mp hs
    rw [lookup_cons_ite]
    rcases List.mem_cons.mp h with rfl | h
    · rw [if_pos rfl]
    · have hlt : e.1 < k := hs'.1 _ h
      rw [if_neg (KeyOrder.ne_of_lt hlt).symm]
      exact lookup_of_mem hs'.2 h

theorem mem_entries_iff {m : SortedMap κ α} {k : κ} {v : α} :
    (k, v) ∈ m.entries ↔ m.get? k = some v :=
  ⟨lookup_of_mem m.sorted, mem_of_lookup⟩

theorem mem_values_iff {m : SortedMap κ α} {v : α} :
    v ∈ m.values ↔ ∃ k, m.get? k = some v := by
  unfold values
  rw [List.mem_map]
  constructor
  · rintro ⟨⟨k, v⟩, h, rfl⟩
    exact ⟨k, mem_entries_iff.mp h⟩
  · rintro ⟨k, h⟩
    exact ⟨(k, v), mem_entries_iff.mpr h, rfl⟩

theorem mem_keys_iff {m : SortedMap κ α} {k : κ} : k ∈ m.keys ↔ m.contains k = true := by
  unfold keys
  rw [List.mem_map, contains_iff]
  constructor
  · rintro ⟨⟨k, v⟩, h, rfl⟩
    exact ⟨v, mem_entries_iff.mp h⟩
  · rintro ⟨v, h⟩
    exact ⟨(k, v), mem_entries_iff.mpr h, rfl⟩

theorem isEmpty_iff {m : SortedMap κ α} : m.isEmpty = true ↔ ∀ k, m.get? k = none := by
  unfold isEmpty
  rw [List.isEmpty_iff]
  constructor
  · intro h k
    unfold get?
    rw [h]
    rfl
  · intro h
    refine List.eq_nil_iff_forall_not_mem.mpr fun e he => ?_
    have := mem_entries_iff.mp (show (e.1, e.2) ∈ m.entries from he)
    rw [h] at this
    exact absurd this (by simp)

end Lookup

/-! ## A new key -/

section Insert

variable [DecidableEq κ] [DecidableLT κ] [KeyOrder κ]

theorem perm_insertEntry {k : κ} {v : α} :
    ∀ {es : List (κ × α)}, es.lookup k = none → (insertEntry k v es).Perm ((k, v) :: es)
  | [], _ => List.Perm.refl _
  | e :: es, h => by
    rw [lookup_cons_ite] at h
    by_cases he : k = e.1
    · rw [if_pos he] at h
      exact absurd h (by simp)
    · rw [if_neg he] at h
      unfold insertEntry
      split
      · exact List.Perm.refl _
      · rename_i hk
        split
        · exact ((perm_insertEntry h).cons e).trans (List.Perm.swap _ _ _)
        · rename_i hk'
          exact absurd (KeyOrder.connected hk hk') he

theorem perm_entries_insert {m : SortedMap κ α} {k : κ} (h : m.get? k = none) (v : α) :
    (m.insert k v).entries.Perm ((k, v) :: m.entries) :=
  perm_insertEntry h

theorem perm_values_insert {m : SortedMap κ α} {k : κ} (h : m.get? k = none) (v : α) :
    (m.insert k v).values.Perm (v :: m.values) :=
  (perm_entries_insert h v).map Prod.snd

/-- A value behind an insertion is the new one, or was there. -/
theorem get?_insert_cases {m : SortedMap κ α} {k j : κ} {v w : α}
    (h : (m.insert k v).get? j = some w) : (j = k ∧ w = v) ∨ m.get? j = some w := by
  rw [get?_insert] at h
  split at h
  · exact .inl ⟨by assumption, (Option.some.inj h).symm⟩
  · exact .inr h

theorem size_insert {m : SortedMap κ α} {k : κ} (h : m.get? k = none) (v : α) :
    (m.insert k v).size = m.size + 1 :=
  (perm_entries_insert h v).length_eq

theorem contains_insert (m : SortedMap κ α) (k : κ) (v : α) (j : κ) :
    (m.insert k v).contains j = (decide (j = k) || m.contains j) := by
  unfold contains
  rw [get?_insert]
  by_cases h : j = k
  · simp [h]
  · simp [h]

/-- Different keys can be set in any order. -/
theorem insert_comm (m : SortedMap κ α) {k j : κ} (h : k ≠ j) (v w : α) :
    (m.insert k v).insert j w = (m.insert j w).insert k v := by
  refine ext_get? fun i => ?_
  simp only [get?_insert]
  by_cases hj : i = j
  · by_cases hk : i = k
    · exact absurd (hk.symm.trans hj) h
    · simp [hj, Ne.symm h]
  · simp [hj]

end Insert

/-! ## Another value under a key -/

section Modify

variable [DecidableEq κ]

@[simp] theorem keys_modify (m : SortedMap κ α) (k : κ) (f : α → α) :
    (m.modify k f).keys = m.keys := by
  unfold keys modify
  rw [List.map_map]
  rfl

@[simp] theorem size_modify (m : SortedMap κ α) (k : κ) (f : α → α) :
    (m.modify k f).size = m.size := by
  unfold size modify
  rw [List.length_map]

theorem contains_modify (m : SortedMap κ α) (k : κ) (f : α → α) (j : κ) :
    (m.modify k f).contains j = m.contains j := by
  unfold contains
  rw [get?_modify]
  split
  · rw [Option.isSome_map]
  · rfl

/-- A value behind a change is the one that was changed, or was there. -/
theorem get?_modify_cases {m : SortedMap κ α} {k j : κ} {f : α → α} {w : α}
    (h : (m.modify k f).get? j = some w) :
    (j = k ∧ ∃ v, m.get? k = some v ∧ w = f v) ∨ m.get? j = some w := by
  rw [get?_modify] at h
  split at h
  · rename_i hj
    obtain ⟨v, hv, rfl⟩ := Option.map_eq_some_iff.mp h
    exact .inl ⟨hj, v, hj ▸ hv, rfl⟩
  · exact .inr h

variable [KeyOrder κ]

/-- Two changes can be made in any order if, under one key, they can. -/
theorem modify_comm (m : SortedMap κ α) {k j : κ} {f g : α → α}
    (h : k = j → ∀ v, f (g v) = g (f v)) :
    (m.modify k f).modify j g = (m.modify j g).modify k f := by
  refine ext_get? fun i => ?_
  simp only [get?_modify]
  by_cases hk : i = k
  · by_cases hj : i = j
    · simp [← hk, ← hj, Option.map_map, Function.comp_def, h (hk.symm.trans hj)]
    · simp [hk, hk ▸ hj]
  · simp [hk]

theorem map_modify_of_lookup {k : κ} {f : α → α} :
    ∀ {es : List (κ × α)}, (∀ e ∈ es, k < e.1) →
      (es.map fun e => (e.1, if e.1 = k then f e.2 else e.2)) = es
  | [], _ => rfl
  | e :: es, h => by
    have hne := (KeyOrder.ne_of_lt (h e List.mem_cons_self)).symm
    rw [List.map_cons, if_neg hne, map_modify_of_lookup fun d hd => h d (List.mem_cons_of_mem e hd)]

theorem sum_map_modify {k : κ} {v : α} {f : α → α} (g : α → Nat) :
    ∀ {es : List (κ × α)}, es.Pairwise (fun a b => a.1 < b.1) → es.lookup k = some v →
      ((es.map fun e => (e.1, if e.1 = k then f e.2 else e.2)).map fun e => g e.2).sum + g v =
        (es.map fun e => g e.2).sum + g (f v)
  | [], _, h => absurd h (by simp)
  | e :: es, hs, h => by
    have hs' := List.pairwise_cons.mp hs
    rw [lookup_cons_ite] at h
    by_cases hk : k = e.1
    · rw [if_pos hk] at h
      obtain rfl := Option.some.inj h
      subst hk
      rw [List.map_cons, if_pos rfl, map_modify_of_lookup hs'.1]
      simp only [List.map_cons, List.sum_cons]
      omega
    · rw [if_neg hk] at h
      have ih := sum_map_modify (f := f) g hs'.2 h
      simp only [List.map_cons, List.sum_cons, if_neg (Ne.symm hk)] at ih ⊢
      omega

/-- A change under one key changes a sum over all values by the difference. -/
theorem sum_modify {m : SortedMap κ α} {k : κ} {v : α} (h : m.get? k = some v) (f : α → α)
    (g : α → Nat) : ((m.modify k f).values.map g).sum + g v = (m.values.map g).sum + g (f v) := by
  have := sum_map_modify (f := f) g m.sorted h
  unfold values modify
  simp only [List.map_map, Function.comp_def] at this ⊢
  exact this

end Modify

end SortedMap

/-! ## Sets -/

namespace SortedSet

variable {κ : Type} [LT κ] [DecidableEq κ]

theorem contains_add [DecidableLT κ] [KeyOrder κ] (s : SortedSet κ) (k j : κ) :
    (s.add k).contains j = true ↔ j = k ∨ s.contains j = true := by
  simp [add, SortedMap.contains_insert]

theorem contains_remove (s : SortedSet κ) (k j : κ) :
    (s.remove k).contains j = true ↔ j ≠ k ∧ s.contains j = true := by
  unfold remove SortedMap.contains
  rw [SortedMap.get?_erase]
  by_cases h : j = k
  · simp [h]
  · simp [h]

end SortedSet

end Netlist
