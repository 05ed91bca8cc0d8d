import Mathlib.Data.Finset.Insert
import Mathlib.Data.Finset.Erase
import Mathlib.Order.Bounds.Basic

/-!
# First-fit pools with a cursor

A pool hands out the slots `lo ≤ i < hi`, lowest first.  It keeps a cursor
below which nothing is free, so that a search need not start at `lo`; giving a
slot back moves the cursor to `lo` again.  Slots outside the range can be
taken and given back too: they are never handed out.
-/

namespace Jerboa.Lib

/-- The slots in use and a cursor with nothing free below it. -/
structure Pool (lo hi : Nat) where
  taken : Finset Nat
  cursor : Nat
  lo_le : lo ≤ cursor
  le_hi : cursor ≤ hi
  dense : ∀ i, lo ≤ i → i < cursor → i ∈ taken

namespace Pool

variable {lo hi : Nat} (p : Pool lo hi)

def free : Set Nat := {i | lo ≤ i ∧ i < hi ∧ i ∉ p.taken}

theorem cursor_le_of_free {i : Nat} (hi : i ∈ p.free) : p.cursor ≤ i :=
  Nat.le_of_not_lt fun hlt => hi.2.2 (p.dense i hi.1 hlt)

theorem isLeast_of_search {i : Nat} (hle : p.cursor ≤ i) (hlt : i < hi) (htaken : i ∉ p.taken)
    (hsearched : ∀ j, p.cursor ≤ j → j < i → j ∈ p.taken) : IsLeast p.free i := by
  refine ⟨⟨p.lo_le.trans hle, hlt, htaken⟩, fun j hj => ?_⟩
  by_contra hji
  exact hj.2.2 (hsearched j (p.cursor_le_of_free hj) (by omega))

theorem mem_taken_of_search (hsearched : ∀ j, p.cursor ≤ j → j < hi → j ∈ p.taken) {i : Nat}
    (hlo : lo ≤ i) (hhi : i < hi) : i ∈ p.taken := by
  by_cases hcursor : i < p.cursor
  · exact p.dense i hlo hcursor
  · exact hsearched i (by omega) hhi

/-- A new pool, with some slots in use from the start. -/
def init (hle : lo ≤ hi) (taken : Finset Nat) : Pool lo hi where
  taken := taken
  cursor := lo
  lo_le := le_rfl
  le_hi := hle
  dense := fun _ hlo hlt => absurd hlt (by omega)

def reserve (i : Nat) : Pool lo hi where
  taken := insert i p.taken
  cursor := p.cursor
  lo_le := p.lo_le
  le_hi := p.le_hi
  dense := fun j hlo hlt => Finset.mem_insert_of_mem (p.dense j hlo hlt)

def take {i : Nat} (hleast : IsLeast p.free i) : Pool lo hi where
  taken := insert i p.taken
  cursor := i + 1
  lo_le := hleast.1.1.trans (Nat.le_succ i)
  le_hi := hleast.1.2.1
  dense := by
    intro j hlo hlt
    rw [Finset.mem_insert]
    by_contra hj
    rw [not_or] at hj
    have hfree : j ∈ p.free := ⟨hlo, by have := hleast.1.2.1; omega, hj.2⟩
    have hle : i ≤ j := hleast.2 hfree
    omega

def release (i : Nat) : Pool lo hi where
  taken := p.taken.erase i
  cursor := lo
  lo_le := le_rfl
  le_hi := p.lo_le.trans p.le_hi
  dense := fun _ hlo hlt => absurd hlt (by omega)

end Pool

end Jerboa.Lib
