import Mathlib.Data.List.Count
import Mathlib.Data.List.Perm.Basic

/-!
# Ranges and how often they cover a point

A range has its start and not its stop.  Who owns which part of a store is kept
as a list of ranges: no point has two owners when none is covered twice, and
moving, splitting and joining ranges does not change how often a point is
covered.
-/

namespace Jerboa.Lib

open List

structure Range where
  start : Nat
  stop : Nat
deriving DecidableEq, Repr

namespace Range

instance : Membership Nat Range := ⟨fun r b => r.start ≤ b ∧ b < r.stop⟩

theorem mem_def {r : Range} {b : Nat} : b ∈ r ↔ r.start ≤ b ∧ b < r.stop := Iff.rfl

instance (b : Nat) (r : Range) : Decidable (b ∈ r) := inferInstanceAs (Decidable (_ ∧ _))

def span (r : Range) : Nat := r.stop - r.start

def ofLength (start length : Nat) : Range := ⟨start, start + length⟩

theorem mem_ofLength {a n b : Nat} : b ∈ ofLength a n ↔ a ≤ b ∧ b < a + n := Iff.rfl

theorem span_ofLength (a n : Nat) : (ofLength a n).span = n := Nat.add_sub_cancel_left a n

def points (r : Range) : List Nat := List.range' r.start r.span

@[simp] theorem mem_points {r : Range} {b : Nat} : b ∈ r.points ↔ b ∈ r := by
  simp only [points, span, mem_range'_1, mem_def]
  omega

def Meets (r q : Range) : Prop := ∃ b ∈ r.points, b ∈ q
deriving Decidable

end Range

def cover (b : Nat) (rs : List Range) : Nat := rs.countP (b ∈ ·)

section

variable {b : Nat} {rs qs : List Range} {r : Range}

@[simp] theorem cover_nil : cover b [] = 0 := rfl

@[simp] theorem cover_cons : cover b (r :: rs) = cover b rs + if b ∈ r then 1 else 0 := by
  simp [cover, countP_cons]

@[simp] theorem cover_append : cover b (rs ++ qs) = cover b rs + cover b qs :=
  countP_append

theorem cover_perm (h : rs.Perm qs) : cover b rs = cover b qs :=
  h.countP_eq _

theorem cover_pos_of_mem (hr : r ∈ rs) (hb : b ∈ r) : 0 < cover b rs :=
  countP_pos_iff.mpr ⟨r, hr, by simpa using hb⟩

theorem cover_eq_zero (h : ∀ r ∈ rs, b ∉ r) : cover b rs = 0 :=
  countP_eq_zero.mpr fun r hr => by simpa using h r hr

theorem two_le_cover {τ : Type*} {l : List (τ × Range)} {x y : τ × Range} (hx : x ∈ l) (hy : y ∈ l)
    (hne : x.1 ≠ y.1) (hbx : b ∈ x.2) (hby : b ∈ y.2) : 2 ≤ cover b (l.map Prod.snd) := by
  induction l with
  | nil => cases hx
  | cons z l ih =>
    rw [map_cons, cover_cons]
    rcases mem_cons.mp hx with hxz | hxl
    · rcases mem_cons.mp hy with hyz | hyl
      · exact absurd (hxz.trans hyz.symm ▸ rfl) hne
      · have hpos := cover_pos_of_mem (mem_map_of_mem (f := Prod.snd) hyl) hby
        rw [← hxz, if_pos hbx]
        omega
    · rcases mem_cons.mp hy with hyz | hyl
      · have hpos := cover_pos_of_mem (mem_map_of_mem (f := Prod.snd) hxl) hbx
        rw [← hyz, if_pos hby]
        omega
      · exact Nat.le_add_right_of_le (ih hxl hyl)

theorem cover_le_one {τ : Type*} {l : List (τ × Range)} (hnodup : (l.map Prod.fst).Nodup)
    (h : ∀ x ∈ l, ∀ y ∈ l, b ∈ x.2 → b ∈ y.2 → x.1 = y.1) : cover b (l.map Prod.snd) ≤ 1 := by
  induction l with
  | nil => exact Nat.zero_le 1
  | cons x l ih =>
    rw [map_cons, nodup_cons] at hnodup
    rw [map_cons, cover_cons]
    split_ifs with hb
    · have hzero : cover b (l.map Prod.snd) = 0 := by
        refine cover_eq_zero fun r hr hbr => ?_
        obtain ⟨y, hy, rfl⟩ := mem_map.mp hr
        have heq := h x mem_cons_self y (mem_cons_of_mem x hy) hb hbr
        exact hnodup.1 (heq ▸ mem_map_of_mem hy)
      omega
    · exact ih hnodup.2 fun y hy z hz =>
        h y (mem_cons_of_mem x hy) z (mem_cons_of_mem x hz)

theorem cover_join (b : Nat) (rs : List Range) {m : Nat} (hle : r.start ≤ m) (hle' : m ≤ r.stop) :
    cover b (r :: rs) = cover b (⟨r.start, m⟩ :: ⟨m, r.stop⟩ :: rs) := by
  simp only [cover_cons, Range.mem_def]
  split_ifs <;> omega

end

end Jerboa.Lib
