import Jerboa.Lib.Bytes

/-!
# The Internet checksum

The sum of RFC 1071: the bytes are read as 16-bit words, with a zero after an odd last
byte, and added with the carry brought around.  A field of two zero bytes into which the
complement of the sum is written makes the sum all ones.
-/

namespace Jerboa.Lib.Checksum

open List Lib.Bytes

def words : List UInt8 → List Nat
  | [] => []
  | [a] => [a.toNat * 256]
  | a :: b :: rest => (a.toNat * 256 + b.toNat) :: words rest

def add (a b : Nat) : Nat := if 65535 < a + b then a + b - 65535 else a + b

def checksum (bs : List UInt8) (initial : Nat) : Nat := (words bs).foldl add initial

def complement (sum : Nat) : Nat := 65535 - sum

def fold (n : Nat) : Nat := if n = 0 then 0 else (n - 1) % 65535 + 1

theorem fold_le (n : Nat) : fold n ≤ 65535 := by
  unfold fold
  split <;> omega

theorem fold_of_le {n : Nat} (h : n ≤ 65535) : fold n = n := by
  unfold fold
  split <;> omega

theorem add_fold (m : Nat) {w : Nat} (hw : w ≤ 65535) : add (fold m) w = fold (m + w) := by
  unfold add fold
  split <;> split <;> split <;> omega

theorem word_le {bs : List UInt8} {w : Nat} (h : w ∈ words bs) : w ≤ 65535 := by
  induction bs using words.induct with
  | case1 => cases h
  | case2 a =>
    have ha : a.toNat < 256 := a.toNat_lt
    rw [words, mem_singleton] at h
    omega
  | case3 a b rest ih =>
    have ha : a.toNat < 256 := a.toNat_lt
    have hb : b.toNat < 256 := b.toNat_lt
    rw [words, mem_cons] at h
    rcases h with rfl | h
    · omega
    · exact ih h

theorem foldl_add {ws : List Nat} (h : ∀ w ∈ ws, w ≤ 65535) (m : Nat) :
    ws.foldl add (fold m) = fold (m + ws.sum) := by
  induction ws generalizing m with
  | nil => rfl
  | cons w ws ih =>
    obtain ⟨hw, hws⟩ := forall_mem_cons.mp h
    rw [foldl_cons, add_fold m hw, ih hws, sum_cons, Nat.add_assoc]

theorem checksum_eq (bs : List UInt8) {initial : Nat} (h : initial ≤ 65535) :
    checksum bs initial = fold (initial + (words bs).sum) := by
  rw [checksum, ← fold_of_le h, foldl_add (fun w hw => word_le hw), fold_of_le h]

theorem checksum_le (bs : List UInt8) {initial : Nat} (h : initial ≤ 65535) :
    checksum bs initial ≤ 65535 := by
  rw [checksum_eq bs h]
  exact fold_le _

theorem words_append {a : List UInt8} (h : a.length % 2 = 0) (b : List UInt8) :
    words (a ++ b) = words a ++ words b := by
  induction a using words.induct with
  | case1 => rfl
  | case2 =>
    rw [length_singleton] at h
    omega
  | case3 x y rest ih =>
    rw [length_cons, length_cons] at h
    rw [cons_append, cons_append, words, words, ih (by omega), cons_append]

theorem words_beBytes {x : Nat} (h : x ≤ 65535) : words (beBytes 2 x) = [x] := by
  have hx := beNat_beBytes (n := 2) (x := x) (by omega)
  rw [beBytes, beBytes, beBytes, beNat_cons, beNat_cons] at hx
  rw [beBytes, beBytes, beBytes, words, words]
  simp only [length_cons, length_nil, beNat, foldl_nil] at hx
  congr 1
  omega

theorem sum_words_put {bs : List UInt8} {i x : Nat} (heven : i % 2 = 0) (hi : i + 2 ≤ bs.length)
    (hzero : slice bs i 2 = [0, 0]) (hx : x ≤ 65535) :
    (words (put bs i (beBytes 2 x))).sum = (words bs).sum + x := by
  have htake : (bs.take i).length % 2 = 0 := by
    rw [length_take, Nat.min_eq_left (by omega)]
    exact heven
  have hsplit : bs = bs.take i ++ ([0, 0] ++ bs.drop (i + 2)) := by
    rw [← hzero, slice, ← drop_drop, take_append_drop, take_append_drop]
  have hold : (words bs).sum = (words (bs.take i)).sum + (words (bs.drop (i + 2))).sum := by
    conv_lhs => rw [hsplit, words_append htake, words_append (by rfl)]
    simp [words]
  rw [put, length_beBytes, append_assoc, words_append htake, words_append (by rw [length_beBytes]),
    words_beBytes hx, hold]
  simp only [sum_append, sum_singleton]
  omega

theorem checksum_put_complement {bs : List UInt8} {i initial : Nat} (heven : i % 2 = 0)
    (hi : i + 2 ≤ bs.length) (hzero : slice bs i 2 = [0, 0]) (hinitial : initial ≤ 65535) :
    checksum (put bs i (beBytes 2 (complement (checksum bs initial)))) initial = 65535 := by
  have hle := checksum_le bs hinitial
  rw [checksum_eq _ hinitial, sum_words_put heven hi hzero (by rw [complement]; omega),
    checksum_eq bs hinitial, complement]
  unfold fold
  split <;> split <;> omega

end Jerboa.Lib.Checksum
