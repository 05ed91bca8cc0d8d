import Mathlib.Data.List.AList

/-!
# Tables changed by a list

A table of values that carry their own key, filled from a list one value after
the other: a later value replaces an earlier one of the same key.  A table from
which the keys of a list are taken.  And the size of a table.
-/

namespace Jerboa.Lib.Table

open List

universe u v

variable {κ : Type u} {α : Type v} [DecidableEq κ] {key : α → κ}

def insertAll (key : α → κ) (m : AList fun _ : κ => α) (xs : List α) : AList fun _ : κ => α :=
  xs.foldl (fun m x => m.insert (key x) x) m

@[simp] theorem insertAll_nil (m : AList fun _ : κ => α) : insertAll key m [] = m := rfl

@[simp] theorem insertAll_cons (m : AList fun _ : κ => α) (x : α) (xs : List α) :
    insertAll key m (x :: xs) = insertAll key (m.insert (key x) x) xs := rfl

variable {k : κ}

theorem lookup_insertAll_of_ne (m : AList fun _ : κ => α) {xs : List α} (h : ∀ x ∈ xs, key x ≠ k) :
    (insertAll key m xs).lookup k = m.lookup k := by
  induction xs generalizing m with
  | nil => rfl
  | cons x xs ih =>
    have hx : k ≠ key x := (h x mem_cons_self).symm
    rw [insertAll_cons, ih _ fun y hy => h y (mem_cons_of_mem x hy),
      AList.lookup_insert_ne hx]

theorem lookup_insertAll_of_unique (key : α → κ) (m : AList fun _ : κ => α) {xs : List α} {x : α}
    (hx : x ∈ xs) (huniq : ∀ y ∈ xs, key y = key x → y = x) :
    (insertAll key m xs).lookup (key x) = some x := by
  induction xs generalizing m with
  | nil => exact absurd hx not_mem_nil
  | cons y xs ih =>
    have htail : ∀ z ∈ xs, key z = key x → z = x :=
      fun z hz => huniq z (mem_cons_of_mem y hz)
    rw [insertAll_cons]
    by_cases hmem : x ∈ xs
    · exact ih _ hmem htail
    · have hy : y = x := ((mem_cons.mp hx).resolve_right hmem).symm
      subst hy
      rw [lookup_insertAll_of_ne, AList.lookup_insert]
      intro z hz hkey
      exact hmem (htail z hz hkey ▸ hz)

theorem mem_insertAll (m : AList fun _ : κ => α) (xs : List α) :
    k ∈ insertAll key m xs ↔ k ∈ m ∨ ∃ x ∈ xs, key x = k := by
  induction xs generalizing m with
  | nil => simp
  | cons x xs ih =>
    rw [insertAll_cons, ih, AList.mem_insert]
    constructor
    · rintro ((rfl | hm) | ⟨y, hy, rfl⟩)
      · exact .inr ⟨x, mem_cons_self, rfl⟩
      · exact .inl hm
      · exact .inr ⟨y, mem_cons_of_mem x hy, rfl⟩
    · rintro (hm | ⟨y, hy, rfl⟩)
      · exact .inl (.inr hm)
      · rcases mem_cons.mp hy with rfl | hy
        · exact .inl (.inl rfl)
        · exact .inr ⟨y, hy, rfl⟩

variable {m : AList fun _ : κ => α}

theorem length_keys_insert_of_mem (v : α) (h : k ∈ m) :
    (m.insert k v).keys.length = m.keys.length := by
  have hmem := AList.mem_keys.mp h
  have hpos := length_pos_of_mem hmem
  rw [AList.keys_insert, length_cons, length_erase_of_mem hmem]
  omega

theorem length_keys_insert_le (m : AList fun _ : κ => α) (k : κ) (v : α) :
    (m.insert k v).keys.length ≤ m.keys.length + 1 := by
  rw [AList.keys_insert, length_cons]
  exact Nat.succ_le_succ length_erase_le

theorem length_keys_erase_le (m : AList fun _ : κ => α) (k : κ) :
    (m.erase k).keys.length ≤ m.keys.length := by
  rw [AList.keys_erase]
  exact length_erase_le

theorem length_keys_erase_of_mem (h : k ∈ m) :
    (m.erase k).keys.length + 1 = m.keys.length := by
  have hmem := AList.mem_keys.mp h
  have hpos := length_pos_of_mem hmem
  rw [AList.keys_erase, length_erase_of_mem hmem]
  omega

theorem perm_cons_erase {v : α} (h : m.lookup k = some v) :
    m.entries.Perm (⟨k, v⟩ :: (m.erase k).entries) := by
  have hmem : k ∈ m.entries.keys := AList.mem_keys.mp (AList.lookup_isSome.mp (by rw [h]; rfl))
  obtain ⟨v', l, l', -, hm, herase⟩ := exists_of_kerase hmem
  have hv' : v' ∈ m.lookup k := by
    rw [AList.mem_lookup_iff, hm]
    simp
  rw [h, Option.mem_some_iff] at hv'
  subst hv'
  change m.entries.Perm (⟨k, v⟩ :: m.entries.kerase k)
  rw [herase, hm]
  exact perm_middle

def eraseAll (m : AList fun _ : κ => α) (ks : List κ) : AList fun _ : κ => α :=
  ks.foldl (fun m k => m.erase k) m

theorem lookup_eraseAll (m : AList fun _ : κ => α) (ks : List κ) (k : κ) :
    (eraseAll m ks).lookup k = if k ∈ ks then none else m.lookup k := by
  induction ks generalizing m with
  | nil => rfl
  | cons k' ks ih =>
    change (eraseAll (m.erase k') ks).lookup k = _
    rw [ih]
    rcases eq_or_ne k k' with rfl | hne
    · simp [AList.lookup_erase]
    · simp [AList.lookup_erase_ne hne, hne]

end Jerboa.Lib.Table
