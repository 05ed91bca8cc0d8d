import Jerboa.Lib.Range

/-!
# Storage blocks

Which blocks of a volume are allocated.  The range map `fs->storage` joins
ranges that touch, so it is the set of allocated blocks and nothing more.
Nodes for it can always be allocated.
-/

namespace Jerboa.Tfs

open Lib

/-- `fs->storage` and the size of the volume in blocks. -/
structure Storage where
  size : Nat
  used : Nat → Bool

namespace Storage

def isFree (st : Storage) (r : Range) : Bool := r.points.all fun b => !st.used b

def isUsed (st : Storage) (r : Range) : Bool := r.points.all st.used

def mark (st : Storage) (r : Range) (v : Bool) : Storage :=
  { st with used := fun b => if b ∈ r then v else st.used b }

def firstGap (st : Storage) (n : Nat) : Option Nat :=
  (List.range (st.size + 1 - n)).find? fun start => st.isFree (.ofLength start n)

/-- `filesystem_allocate_storage`. -/
def allocate (st : Storage) (n : Nat) : Option (Nat × Storage) :=
  (st.firstGap n).map fun start => (start, st.mark (.ofLength start n) true)

def reserve (st : Storage) (r : Range) : Option Storage :=
  if st.isFree r then some (st.mark r true) else none

def free (st : Storage) (r : Range) : Storage :=
  if st.isUsed r then st.mark r false else st

variable {st : Storage} {r : Range}

theorem isFree_iff : st.isFree r = true ↔ ∀ b ∈ r, st.used b = false := by
  simp [isFree]

theorem isUsed_iff : st.isUsed r = true ↔ ∀ b ∈ r, st.used b = true := by
  simp [isUsed]

theorem allocate_eq_some {n start : Nat} {st' : Storage} (h : st.allocate n = some (start, st')) :
    st.isFree (.ofLength start n) = true ∧ st' = st.mark (.ofLength start n) true := by
  obtain ⟨start', hgap, heq⟩ := Option.map_eq_some_iff.mp h
  cases heq
  exact ⟨List.find?_some (p := fun start => st.isFree (.ofLength start n)) hgap, rfl⟩

theorem reserve_eq_some {st' : Storage} (h : st.reserve r = some st') :
    st.isFree r = true ∧ st' = st.mark r true := by
  unfold reserve at h
  split_ifs at h with hfree
  cases h
  exact ⟨hfree, rfl⟩

def Owned (st : Storage) (rs : List Range) : Prop := ∀ b, cover b rs ≤ (st.used b).toNat

namespace Owned

variable {rs qs : List Range}

section

variable (h : st.Owned rs)
include h

theorem perm (hperm : rs.Perm qs) : st.Owned qs := by
  intro b
  rw [← cover_perm hperm]
  exact h b

theorem le (hle : ∀ b, cover b qs ≤ cover b rs) : st.Owned qs :=
  fun b => Nat.le_trans (hle b) (h b)

theorem used (hr : r ∈ rs) {b : Nat} (hb : b ∈ r) : st.used b = true := by
  have hpos := cover_pos_of_mem hr hb
  have hle := h b
  cases hused : st.used b with
  | true => rfl
  | false =>
    rw [hused, Bool.toNat_false] at hle
    omega

theorem mark_true (hfree : st.isFree r = true) : (st.mark r true).Owned (r :: rs) := by
  intro b
  have hle := h b
  rw [cover_cons]
  by_cases hb : b ∈ r
  · rw [isFree_iff.mp hfree b hb, Bool.toNat_false] at hle
    simp only [mark, if_pos hb, Bool.toNat_true]
    omega
  · simpa [mark, hb] using hle

end

theorem free (h : st.Owned (r :: rs)) : (st.free r).Owned rs := by
  have hused : st.isUsed r = true :=
    isUsed_iff.mpr fun b hb => h.used List.mem_cons_self hb
  rw [Storage.free, if_pos hused]
  intro b
  have hle := h b
  rw [cover_cons] at hle
  by_cases hb : b ∈ r
  · rw [if_pos hb] at hle
    have := Bool.toNat_le (st.used b)
    omega
  · simpa [mark, hb] using hle

theorem foldl_free {ps : List (Nat × Range)} (h : st.Owned (ps.map Prod.snd ++ rs)) :
    (ps.foldl (fun st p => st.free p.2) st).Owned rs := by
  induction ps generalizing st with
  | nil => exact h
  | cons p ps ih => exact ih h.free

end Owned

end Storage

end Jerboa.Tfs
