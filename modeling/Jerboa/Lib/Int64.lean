import Mathlib.Algebra.Group.Nat.Defs
import Mathlib.Algebra.Ring.Int.Defs

/-!
# Numbers of 64 bits

The arithmetic of a signed 64-bit type over the integers: a result outside of its
range comes back at the other end.
-/

namespace Jerboa.Lib

def int64 (x : Int) : Int := x.bmod (2 ^ 64)

variable {x : Int}

theorem int64_eq_self (hlo : 0 ≤ x) (hhi : x < 2 ^ 63) : int64 x = x :=
  Int.bmod_eq_of_le (by omega) (by omega)

theorem int64_lt (x : Int) : int64 x < 2 ^ 63 := Int.bmod_lt (by decide)

theorem int64_le_self (hx : 0 ≤ x) : int64 x ≤ x := by
  by_cases hhi : x < 2 ^ 63
  · exact Int.le_of_eq (int64_eq_self hx hhi)
  · have hlt := int64_lt x
    omega

@[simp] theorem int64_int64 (x : Int) : int64 (int64 x) = int64 x := Int.bmod_bmod

@[simp] theorem int64_add (x y : Int) : int64 (int64 x + y) = int64 (x + y) := Int.bmod_add_bmod

@[simp] theorem int64_add_int64 (x y : Int) : int64 (x + int64 y) = int64 (x + y) :=
  Int.add_bmod_bmod

end Jerboa.Lib
