import Jerboa.Lib.Bytes
import Mathlib.Algebra.Ring.Int.Defs
import Mathlib.Data.List.Basic

/-!
# The log of a VM

`safeBuffer`, in which the daemon captures what a guest prints.  Whatever is written to it,
in chunks of whatever sizes, it holds the end of that.
-/

namespace Jerboa.Vm.LogBuffer

open Lib

def defaultVMLogMaxBytes : Int := 4 * 2 ^ 20

/-- `safeBuffer`, with the capacity of `buf`. -/
structure SafeBuffer where
  buf : Bytes
  cap : Nat
  max : Int

namespace SafeBuffer

def new : SafeBuffer := ⟨[], 0, 0⟩

/-- The limit of the buffer: `vmLogMaxBytes`, or the default, if none was set before. -/
def resolveMax (b : SafeBuffer) (vmLogMaxBytes : Int) : Int :=
  if b.max ≤ 0 then (if vmLogMaxBytes ≤ 0 then defaultVMLogMaxBytes else vmLogMaxBytes) else b.max

/-- `Write`, with the number it reports.  It is `none` where `buf` would be sliced beyond
its capacity, or made with a length beyond it. -/
def write (b : SafeBuffer) (vmLogMaxBytes : Int) (p : Bytes) : Option (SafeBuffer × Nat) :=
  let limit := b.resolveMax vmLogMaxBytes
  let max := limit.toNat
  let n := p.length
  if n = 0 then some (⟨b.buf, b.cap, limit⟩, 0)
  else if b.cap < max ∧ max < b.buf.length then none
  else
    let cap := if b.cap < max then max else b.cap
    if max ≤ n then
      if cap < max then none else some (⟨p.drop (n - max), cap, limit⟩, n)
    else
      let buf := if max < b.buf.length + n then b.buf.drop (b.buf.length + n - max) else b.buf
      -- `append` makes a new array if this one has no room.
      let cap := if buf.length + n ≤ cap then cap else buf.length + n
      some (⟨buf ++ p, cap, limit⟩, n)

/-- Writes one after the other, each with the `vmLogMaxBytes` of its time. -/
def writeAll (b : SafeBuffer) : List (Int × Bytes) → Option (SafeBuffer × List Nat)
  | [] => some (b, [])
  | (vmLogMaxBytes, p) :: rest =>
    (b.write vmLogMaxBytes p).bind fun r =>
      (writeAll r.1 rest).map fun out => (out.1, r.2 :: out.2)

/-- The buffer holds the end of what was written. -/
def Holds (b : SafeBuffer) (max : Nat) (written : Bytes) : Prop :=
  b.buf = written.drop (written.length - max)

theorem write_holds {b : SafeBuffer} {written : Bytes} {vmLogMaxBytes : Int} {max : Nat}
    (h : b.Holds max written) (hpos : 0 < max) (hmax : b.resolveMax vmLogMaxBytes = max)
    (p : Bytes) :
    ∃ b', b.write vmLogMaxBytes p = some (b', p.length) ∧ b'.max = max ∧ b'.Holds max
      (written ++ p) := by
  have hlength : b.buf.length = min written.length max := by
    rw [h, List.length_drop]
    omega
  unfold write
  simp only [hmax, Int.toNat_natCast]
  split
  · next hempty =>
    rw [List.length_eq_zero_iff] at hempty
    subst hempty
    exact ⟨_, rfl, rfl, by rwa [List.append_nil]⟩
  rw [if_neg (by omega)]
  split
  · next hn =>
    rw [if_neg (by split <;> omega)]
    refine ⟨_, rfl, rfl, ?_⟩
    rw [Holds, List.length_append, Nat.add_sub_assoc hn, ← List.drop_drop, List.drop_left]
  · next hn =>
    refine ⟨_, rfl, rfl, ?_⟩
    rw [Holds, List.length_append, List.drop_append_of_le_length (by omega)]
    dsimp only
    congr 1
    split
    · rw [h, List.drop_drop, List.length_drop]
      congr 1
      omega
    · rw [h]
      congr 1
      omega

theorem writeAll_holds {b : SafeBuffer} {max : Nat} {written : Bytes} (h : b.Holds max written)
    (hpos : 0 < max) (hmax : b.max = max) (writes : List (Int × Bytes)) :
    ∃ b', b.writeAll writes = some (b', writes.map fun w => w.2.length) ∧
      b'.Holds max (written ++ writes.flatMap Prod.snd) := by
  induction writes generalizing b written with
  | nil => exact ⟨b, rfl, by rwa [List.flatMap_nil, List.append_nil]⟩
  | cons w rest ih =>
    have hlimit : b.resolveMax w.1 = max := by rw [resolveMax, if_neg (by omega), hmax]
    obtain ⟨b₁, hwrite, hmax₁, h₁⟩ := write_holds h hpos hlimit w.2
    obtain ⟨b₂, hrest, h₂⟩ := ih h₁ hmax₁
    refine ⟨b₂, ?_, ?_⟩
    · rw [writeAll, hwrite, Option.bind_some, hrest]
      rfl
    · rwa [List.flatMap_cons, ← List.append_assoc]

end SafeBuffer

open SafeBuffer

/-- The capacity of a new buffer is what the first write finds. -/
def capacity (writes : List (Int × Bytes)) : Nat :=
  (new.resolveMax (writes.head?.elim 0 Prod.fst)).toNat

theorem resolveMax_new_pos (vmLogMaxBytes : Int) : 0 < new.resolveMax vmLogMaxBytes := by
  rw [resolveMax, if_pos (show new.max ≤ 0 from Int.le_refl 0), defaultVMLogMaxBytes]
  split <;> omega

/-- Whatever is written, in chunks of whatever sizes, every write reports the length of its
chunk, and the buffer holds as much of the end of it all as its capacity allows. -/
theorem bytes_eq_end (writes : List (Int × Bytes)) :
    ∃ b, SafeBuffer.new.writeAll writes = some (b, writes.map fun w => w.2.length) ∧
      b.buf = (writes.flatMap Prod.snd).drop
        ((writes.flatMap Prod.snd).length - capacity writes) := by
  cases writes with
  | nil => exact ⟨new, rfl, rfl⟩
  | cons w rest =>
    have hpos := resolveMax_new_pos w.1
    have hlimit : new.resolveMax w.1 = capacity (w :: rest) :=
      (Int.toNat_of_nonneg (Int.le_of_lt hpos)).symm
    have hcapacity : 0 < capacity (w :: rest) := by omega
    have hnew : new.Holds (capacity (w :: rest)) [] := by rw [Holds, List.drop_nil, new]
    obtain ⟨b₁, hwrite, hmax, h₁⟩ := write_holds hnew hcapacity hlimit w.2
    obtain ⟨b₂, hrest, h₂⟩ := writeAll_holds h₁ hcapacity hmax rest
    refine ⟨b₂, ?_, h₂⟩
    rw [writeAll, hwrite, Option.bind_some, hrest]
    rfl

end Jerboa.Vm.LogBuffer
