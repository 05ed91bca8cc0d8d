import Mathlib.Data.List.Count

/-!
# Tallies

A map of counters in which a key that is not there counts as zero, and a counter that
comes down to zero is taken out.  It counts a list if the counter of each key is the
number of elements of the list that are counted and have the key.
-/

namespace Jerboa.Lib.Tally

open Function

variable {α κ : Type*} [DecidableEq κ]

def count (c : κ → Option Int) (k : κ) : Int := (c k).getD 0

def incr (c : κ → Option Int) (k : κ) : κ → Option Int :=
  update c k (some (count c k + 1))

def decr (c : κ → Option Int) (k : κ) : κ → Option Int :=
  if count c k - 1 = 0 then update c k none else update c k (some (count c k - 1))

def entry (n : Nat) : Option Int := if n = 0 then none else some n

def tally (p : α → Bool) (key : α → κ) (l : List α) (k : κ) : Nat :=
  l.countP fun a => p a && key a = k

def Counts (p : α → Bool) (key : α → κ) (l : List α) (c : κ → Option Int) : Prop :=
  ∀ k, c k = entry (tally p key l k)

variable {p : α → Bool} {key : α → κ} {l : List α} {c : κ → Option Int} {a : α}

theorem Counts.count_eq (h : Counts p key l c) (k : κ) : count c k = tally p key l k := by
  rw [count, h k, entry]
  split
  · next hzero =>
      rw [hzero]
      rfl
  · rfl

theorem Counts.incr (h : Counts p key l c) (ha : p a) : Counts p key (a :: l) (incr c (key a)) := by
  intro k
  by_cases hk : key a = k
  · subst hk
    have hone : tally p key (a :: l) (key a) = tally p key l (key a) + 1 :=
      List.countP_cons_of_pos (by simp [ha])
    rw [Tally.incr, update_self, h.count_eq, hone, entry, if_neg (Nat.succ_ne_zero _)]
    rfl
  · have hsame : tally p key (a :: l) k = tally p key l k := List.countP_cons_of_neg (by simp [hk])
    rw [Tally.incr, update_of_ne (Ne.symm hk), h k, hsame]

theorem Counts.cons_of_not (h : Counts p key l c) (ha : p a = false) : Counts p key (a :: l) c := by
  intro k
  have hsame : tally p key (a :: l) k = tally p key l k := List.countP_cons_of_neg (by simp [ha])
  rw [h k, hsame]

variable [DecidableEq α]

theorem Counts.decr (h : Counts p key l c) (hmem : a ∈ l) (ha : p a) :
    Counts p key (l.erase a) (decr c (key a)) := by
  intro k
  by_cases hk : key a = k
  · subst hk
    have hcount := h.count_eq (key a)
    have hpos : 0 < tally p key l (key a) := List.countP_pos_iff.mpr ⟨a, hmem, by simp [ha]⟩
    have hone : tally p key (l.erase a) (key a) = tally p key l (key a) - 1 := by
      rw [tally, List.countP_erase, if_pos ⟨hmem, by simp [ha]⟩, tally]
    rw [hone, entry, Tally.decr]
    split
    · rw [update_self, if_pos (by omega)]
    · rw [update_self, if_neg (by omega), Option.some_inj]
      omega
  · have hsame : tally p key (l.erase a) k = tally p key l k := by
      rw [tally, List.countP_erase, if_neg (by simp [hk]), Nat.sub_zero, tally]
    rw [hsame, ← h k, Tally.decr]
    split <;> exact update_of_ne (Ne.symm hk) _ _

theorem Counts.erase_of_not (h : Counts p key l c) (ha : p a = false) :
    Counts p key (l.erase a) c := by
  intro k
  have hsame : tally p key (l.erase a) k = tally p key l k := by
    rw [tally, List.countP_erase, if_neg (by simp [ha]), Nat.sub_zero, tally]
  rw [h k, hsame]

end Jerboa.Lib.Tally
