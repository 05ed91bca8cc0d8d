import Mathlib.Data.List.Basic
import Mathlib.Tactic.Ring

/-!
# Bytes

Fields of a sequence of bytes: a field is some bytes from an offset on, and a number
is written with its most significant byte first.
-/

namespace Jerboa.Lib

abbrev Bytes := List UInt8

namespace Bytes

open List

def beNat (bs : List UInt8) : Nat := bs.foldl (fun acc b => acc * 256 + b.toNat) 0

def beBytes : Nat → Nat → List UInt8
  | 0, _ => []
  | n + 1, x => UInt8.ofNat (x / 256 ^ n) :: beBytes n x

@[simp] theorem length_beBytes (n x : Nat) : (beBytes n x).length = n := by
  induction n with
  | zero => rfl
  | succ n ih => rw [beBytes, length_cons, ih]

theorem foldl_be (bs : List UInt8) (acc : Nat) :
    bs.foldl (fun acc b => acc * 256 + b.toNat) acc = acc * 256 ^ bs.length + beNat bs := by
  induction bs generalizing acc with
  | nil => simp [beNat]
  | cons b bs ih =>
    rw [beNat, foldl_cons, foldl_cons, ih, ih, length_cons, pow_succ]
    ring

theorem beNat_cons (b : UInt8) (bs : List UInt8) :
    beNat (b :: bs) = b.toNat * 256 ^ bs.length + beNat bs := by
  rw [beNat, foldl_cons, foldl_be, Nat.zero_mul, Nat.zero_add]

theorem beNat_lt (bs : List UInt8) : beNat bs < 256 ^ bs.length := by
  induction bs with
  | nil => simp [beNat]
  | cons b bs =>
    have hb : b.toNat < 256 := b.toNat_lt
    rw [beNat_cons, length_cons, pow_succ]
    calc b.toNat * 256 ^ bs.length + beNat bs
      _ < b.toNat * 256 ^ bs.length + 256 ^ bs.length := by omega
      _ = (b.toNat + 1) * 256 ^ bs.length := by ring
      _ ≤ 256 * 256 ^ bs.length := Nat.mul_le_mul_right _ (by omega)
      _ = 256 ^ bs.length * 256 := by ring

theorem beNat_beBytes_mod (n x : Nat) : beNat (beBytes n x) = x % 256 ^ n := by
  induction n with
  | zero => simp [beBytes, beNat, Nat.mod_one]
  | succ n ih =>
    have hpow : 256 ^ (n + 1) = 256 ^ n * 256 := pow_succ 256 n
    have hbyte : (UInt8.ofNat (x / 256 ^ n)).toNat = x / 256 ^ n % 256 := UInt8.toNat_ofNat'
    rw [beBytes, beNat_cons, ih, length_beBytes, hbyte, hpow, Nat.mod_mul]
    ring

theorem beNat_beBytes {n x : Nat} (h : x < 256 ^ n) : beNat (beBytes n x) = x := by
  rw [beNat_beBytes_mod, Nat.mod_eq_of_lt h]

theorem beBytes_beNat_append (a bs : List UInt8) : beBytes bs.length (beNat (a ++ bs)) = bs := by
  induction bs generalizing a with
  | nil => rfl
  | cons b bs ih =>
    have hpow : 0 < 256 ^ bs.length := Nat.pow_pos (by omega)
    have hnat : beNat (a ++ b :: bs) = beNat (a ++ [b]) * 256 ^ bs.length + beNat bs := by
      rw [append_cons, beNat, foldl_append, foldl_be]
      rfl
    have hlast : beNat (a ++ [b]) = beNat a * 256 + b.toNat := by
      rw [beNat, foldl_append]
      rfl
    have hdiv : beNat (a ++ b :: bs) / 256 ^ bs.length = beNat a * 256 + b.toNat := by
      rw [hnat, hlast, Nat.mul_comm, Nat.mul_add_div hpow, Nat.div_eq_of_lt (beNat_lt bs),
        Nat.add_zero]
    have hbyte : UInt8.ofNat (beNat a * 256 + b.toNat) = b := by
      apply UInt8.toNat_inj.mp
      have hb : b.toNat < 256 := b.toNat_lt
      rw [UInt8.toNat_ofNat']
      omega
    have hrest := ih (a ++ [b])
    rw [append_assoc, singleton_append] at hrest
    rw [length_cons, beBytes, hdiv, hbyte, hrest]

theorem beBytes_beNat (bs : List UInt8) : beBytes bs.length (beNat bs) = bs :=
  beBytes_beNat_append [] bs

/-! ## Fields -/

def slice (f : List UInt8) (i n : Nat) : List UInt8 := (f.drop i).take n

def put (f : List UInt8) (i : Nat) (bs : List UInt8) : List UInt8 :=
  f.take i ++ bs ++ f.drop (i + bs.length)

variable {f : List UInt8} {bs : List UInt8} {i : Nat}

theorem length_put (h : i + bs.length ≤ f.length) :
    (put f i bs).length = f.length := by
  simp only [put, length_append, length_take, length_drop]
  omega

theorem getElem?_put (h : i + bs.length ≤ f.length) (k : Nat) :
    (put f i bs)[k]? = if i ≤ k ∧ k < i + bs.length then bs[k - i]? else f[k]? := by
  have htake : (f.take i).length = i := by rw [length_take]; omega
  unfold put
  by_cases hlow : k < i
  · rw [if_neg (by omega), append_assoc, getElem?_append_left (by omega),
      getElem?_take_of_lt hlow]
  · by_cases hhigh : k < i + bs.length
    · rw [if_pos ⟨by omega, hhigh⟩, getElem?_append_left (by rw [length_append]; omega),
        getElem?_append_right (by omega), htake]
    · rw [if_neg (by omega), getElem?_append_right (by rw [length_append]; omega),
        getElem?_drop, length_append, htake]
      congr 1
      omega

theorem getElem?_slice (f : List UInt8) (i n k : Nat) :
    (slice f i n)[k]? = if k < n then f[i + k]? else none := by
  unfold slice
  split
  · next hk => rw [getElem?_take_of_lt hk, getElem?_drop]
  · next hk => rw [getElem?_eq_none]; rw [length_take]; omega

section

variable (h : i + bs.length ≤ f.length)
include h

theorem slice_put_self :
    slice (put f i bs) i bs.length = bs := by
  apply ext_getElem?
  intro k
  rw [getElem?_slice, getElem?_put h]
  by_cases hk : k < bs.length
  · rw [if_pos hk, if_pos ⟨by omega, by omega⟩]
    congr 1
    omega
  · rw [if_neg hk, getElem?_eq_none (by omega)]

theorem slice_put_of_disjoint {j n : Nat}
    (hdisj : j + n ≤ i ∨ i + bs.length ≤ j) : slice (put f i bs) j n = slice f j n := by
  apply ext_getElem?
  intro k
  rw [getElem?_slice, getElem?_slice, getElem?_put h]
  by_cases hk : k < n
  · rw [if_pos hk, if_pos hk, if_neg (by omega)]
  · rw [if_neg hk, if_neg hk]

theorem take_put {k : Nat} (hk : i + bs.length ≤ k) :
    (put f i bs).take k = put (f.take k) i bs := by
  apply ext_getElem?
  intro j
  by_cases hkf : k ≤ f.length
  · have htake : i + bs.length ≤ (f.take k).length := by rw [length_take]; omega
    rw [getElem?_put htake, getElem?_take, getElem?_take, getElem?_put h]
    split_ifs <;> first | rfl | omega
  · rw [take_of_length_le (by rw [length_put h]; omega), take_of_length_le (by omega)]

theorem drop_put {k : Nat} (hk : k ≤ i) :
    (put f i bs).drop k = put (f.drop k) (i - k) bs := by
  apply ext_getElem?
  intro j
  have hdrop : i - k + bs.length ≤ (f.drop k).length := by rw [length_drop]; omega
  rw [getElem?_put hdrop, getElem?_drop, getElem?_drop, getElem?_put h]
  split_ifs with hin hin' hin'
  · congr 1
    omega
  · omega
  · omega
  · rfl

end

theorem slice_take {i n k : Nat} (h : i + n ≤ k) : slice (f.take k) i n = slice f i n := by
  apply ext_getElem?
  intro j
  rw [getElem?_slice, getElem?_slice, getElem?_take]
  split_ifs <;> first | rfl | omega

theorem slice_drop (f : List UInt8) (i n k : Nat) : slice (f.drop k) i n = slice f (k + i) n := by
  rw [slice, slice, drop_drop]

theorem slice_congr {f g : List UInt8} {i n : Nat} (h : ∀ k, i ≤ k → k < i + n → f[k]? = g[k]?) :
    slice f i n = slice g i n := by
  apply ext_getElem?
  intro j
  rw [getElem?_slice, getElem?_slice]
  split
  · next hj => exact h (i + j) (by omega) (by omega)
  · rfl

theorem take_congr {f g : List UInt8} {n : Nat} (h : ∀ k, k < n → f[k]? = g[k]?) :
    f.take n = g.take n := by
  have hslice := slice_congr (i := 0) (n := n) fun k _ hk => h k (by omega)
  rwa [slice, slice, drop_zero, drop_zero] at hslice

theorem drop_congr {f g : List UInt8} {n : Nat} (h : ∀ k, n ≤ k → f[k]? = g[k]?) :
    f.drop n = g.drop n := by
  apply ext_getElem?
  intro j
  rw [getElem?_drop, getElem?_drop]
  exact h (n + j) (by omega)

theorem length_slice {i n : Nat} (h : i + n ≤ f.length) : (slice f i n).length = n := by
  rw [slice, length_take, length_drop]
  omega

end Bytes

end Jerboa.Lib
