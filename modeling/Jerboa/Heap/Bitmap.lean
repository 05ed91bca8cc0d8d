import Mathlib.Algebra.Ring.Nat
import Mathlib.Data.Nat.Log

/-!
# The bitmap

`bitmap.c` of the kernel's runtime: bits in words of 64, searched and changed with masks.
A word that has not been allocated yet reads as zero, which is what `bitmap_extend` fills
it with.  Numbers of bits are far below the range of a `u64`.
-/

namespace Jerboa.Heap

open Function

abbrev Words := Nat → BitVec 64

def getBit (m : Words) (i : Nat) : Bool := (m (i / 64)).getLsbD (i % 64)

def findOrder (x : Nat) : Nat := if 1 < x then Nat.log2 (x - 1) + 1 else 0

def mask (n : Nat) : BitVec 64 := (1#64 <<< n) - 1#64

def wordOp (w m : BitVec 64) (set val : Bool) : BitVec 64 × Bool :=
  if set then (if val then w ||| m else w &&& ~~~m, true)
  else (w, (if val then m &&& w else (m &&& w) ^^^ m) == m)

def opAt (map : Words) (i : Nat) (m : BitVec 64) (set val : Bool) : Words × Bool :=
  (update map i (wordOp (map i) m set val).1, (wordOp (map i) m set val).2)

def wholeWords (set val : Bool) : Nat → Nat → Words → Words × Bool
  | 0, _, map => (map, true)
  | n + 1, w, map =>
    let (map, r) := opAt map w (-1) set val
    if r then wholeWords set val n (w + 1) map else (map, false)

def firstMask (head tail : Nat) (single : Bool) : BitVec 64 :=
  let m : BitVec 64 := -1
  let m := if head ≠ 0 then m &&& ~~~mask head else m
  if tail ≠ 0 ∧ single then m &&& mask tail else m

def forRangeInMap (map : Words) (start nbits : Nat) (set val : Bool) : Words × Bool :=
  let stop := start + nbits
  let head := start % 64
  let tail := stop % 64
  if nbits = 0 then (map, true)
  else
    let single : Bool := head + nbits ≤ 64
    let (map, r) := opAt map (start / 64) (firstMask head tail single) set val
    if !r || single then (map, r)
    else
      let w := (start + (64 - head)) / 64
      let wend := stop / 64
      let (map, r) := wholeWords set val (wend - w) w map
      if !r then (map, false)
      else if tail ≠ 0 then opAt map wend (mask tail) set val
      else (map, true)

structure Bitmap where
  maxbits : Nat
  map : Words

def Bitmap.rangeCheckAndSet (b : Bitmap) (start nbits : Nat) (validate set : Bool) :
    Option Bitmap :=
  if b.maxbits ≤ start ∨ b.maxbits < start + nbits then none
  else if validate && !(forRangeInMap b.map start nbits false !set).2 then none
  else some { b with map := (forRangeInMap b.map start nbits true set).1 }

def multiWord (map : Words) (nbits stride endbit : Nat) : Nat → Nat → Option Nat
  | 0, _ => none
  | fuel + 1, bit =>
    if endbit < bit then none
    else if (forRangeInMap map bit nbits false false).2 then some bit
    else multiWord map nbits stride endbit fuel (bit + stride)

/-- How the search of a word ends: with an offset, past the end, or in the next word. -/
inductive InWord where
  | found (offset : Nat)
  | beyond
  | exhausted

/-- The loop over the offsets in the word `bw`, which starts at `bit`. -/
def inWord (bw : BitVec 64) (stride endbit bit : Nat) : Nat → Nat → BitVec 64 → InWord
  | 0, _, _ => .exhausted
  | fuel + 1, offset, m =>
    if endbit < bit + offset then .beyond
    else if bw &&& m = 0 then .found offset
    else if offset + stride < 64 then
      inWord bw stride endbit bit fuel (offset + stride) (m <<< stride)
    else .exhausted

def singleWord (map : Words) (nbits stride endbit : Nat) : Nat → Nat → Option Nat
  | 0, _ => none
  | fuel + 1, bit =>
    if endbit < bit then none
    else
      let offset := bit % 64
      let base := bit - offset
      let bw := map (base / 64)
      if bw = -1 then singleWord map nbits stride endbit fuel (base + 64)
      else match inWord bw stride endbit base 64 offset (mask nbits <<< offset) with
        | .found offset => some (base + offset)
        | .beyond => none
        | .exhausted => singleWord map nbits stride endbit fuel (base + 64)

/-- `bitmap_alloc_internal`.  Every round of a loop goes on by a bit at least. -/
def Bitmap.allocInternal (b : Bitmap) (nbits startbit endbit : Nat) : Option (Bitmap × Nat) :=
  let stride := 2 ^ findOrder nbits
  let endbit := min endbit b.maxbits
  if endbit < startbit + nbits then none
  else
    let last := endbit - nbits
    let found := if 64 ≤ stride then multiWord b.map nbits stride last (last + 1) startbit
      else singleWord b.map nbits stride last (last + 1) startbit
    found.map fun bit => ({ b with map := (forRangeInMap b.map bit nbits true true).1 }, bit)

def Bitmap.dealloc (b : Bitmap) (bit size : Nat) : Option Bitmap :=
  if b.maxbits < bit + size then none
  else if (forRangeInMap b.map bit size false true).2 = false then none
  else some { b with map := (forRangeInMap b.map bit size true false).1 }

theorem getLsbD_mask {n : Nat} (hn : n < 64) (i : Nat) : (mask n).getLsbD i = decide (i < n) := by
  have hpow : 2 ^ n < 2 ^ 64 := Nat.pow_lt_pow_right (by omega) hn
  have hshift : (1#64 <<< n).toNat = 2 ^ n := by
    rw [BitVec.toNat_shiftLeft, BitVec.toNat_ofNat, Nat.one_mod_eq_one.mpr (by decide),
      Nat.one_shiftLeft, Nat.mod_eq_of_lt hpow]
  have hle : 1#64 ≤ 1#64 <<< n := by
    rw [BitVec.le_def, hshift]
    exact Nat.one_le_two_pow
  have htoNat : (mask n).toNat = 2 ^ n - 1 := by
    rw [mask, BitVec.toNat_sub_of_le hle, hshift]
    rfl
  rw [BitVec.getLsbD, htoNat, Nat.testBit_two_pow_sub_one]

theorem getLsbD_allOnes {i : Nat} (hi : i < 64) : (-1 : BitVec 64).getLsbD i = true := by
  have hones : (-1 : BitVec 64) = BitVec.allOnes 64 := by decide
  rw [hones, BitVec.getLsbD_allOnes, decide_eq_true hi]

theorem getLsbD_firstMask {head tail : Nat} {single : Bool} (hhead : head < 64)
    (htail : tail < 64) {i : Nat} (hi : i < 64) :
    (firstMask head tail single).getLsbD i = true ↔ head ≤ i ∧
      (tail ≠ 0 → single = true → i < tail) := by
  have hlow : (if head ≠ 0 then (-1 : BitVec 64) &&& ~~~mask head else -1).getLsbD i =
      decide (head ≤ i) := by
    split_ifs with hzero
    · rw [BitVec.getLsbD_and, BitVec.getLsbD_not, getLsbD_mask hhead, getLsbD_allOnes hi,
        decide_eq_true hi, Bool.true_and, Bool.true_and, ← decide_not, decide_eq_decide]
      omega
    · rw [getLsbD_allOnes hi, eq_comm, decide_eq_true_eq]
      omega
  rw [firstMask]
  generalize (if head ≠ 0 then (-1 : BitVec 64) &&& ~~~mask head else -1) = low at hlow ⊢
  split_ifs with hcut
  · rw [BitVec.getLsbD_and, hlow, getLsbD_mask htail, Bool.and_eq_true, decide_eq_true_eq,
      decide_eq_true_eq]
    exact and_congr_right fun _ => ⟨fun h _ _ => h, fun h => h hcut.1 hcut.2⟩
  · rw [hlow, decide_eq_true_eq]
    exact ⟨fun h => ⟨h, fun h₁ h₂ => absurd ⟨h₁, h₂⟩ hcut⟩, And.left⟩

def Hits (k : Nat) (m : BitVec 64) (i : Nat) : Prop := i / 64 = k ∧ m.getLsbD (i % 64) = true
deriving Decidable

theorem getBit_opAt (map : Words) (k : Nat) (m : BitVec 64) (val : Bool) (i : Nat) :
    getBit (opAt map k m true val).1 i = if Hits k m i then val else getBit map i := by
  have hmap : (opAt map k m true val).1 = update map k
    (if val then map k ||| m else map k &&& ~~~m) := rfl
  have hlt : i % 64 < 64 := Nat.mod_lt _ (by decide)
  rw [getBit, hmap]
  by_cases hk : i / 64 = k
  · subst hk
    rw [update_self, getBit]
    have hhits : Hits (i / 64) m i ↔ m.getLsbD (i % 64) = true := ⟨And.right, fun h => ⟨rfl, h⟩⟩
    rw [if_congr hhits rfl rfl]
    cases val with
    | false =>
      rw [if_neg (by decide), BitVec.getLsbD_and, BitVec.getLsbD_not, decide_eq_true hlt,
        Bool.true_and]
      cases m.getLsbD (i % 64) <;> cases (map (i / 64)).getLsbD (i % 64) <;> rfl
    | true =>
      rw [if_pos rfl, BitVec.getLsbD_or]
      cases m.getLsbD (i % 64) <;> cases (map (i / 64)).getLsbD (i % 64) <;> rfl
  · rw [update_of_ne hk, if_neg fun h => hk h.1, getBit]

@[simp] theorem opAt_set_snd (map : Words) (k : Nat) (m : BitVec 64) (val : Bool) :
    (opAt map k m true val).2 = true :=
  rfl

@[simp] theorem opAt_test_fst (map : Words) (k : Nat) (m : BitVec 64) (val : Bool) :
    (opAt map k m false val).1 = map :=
  update_eq_self k map

theorem opAt_test_snd {map : Words} {k : Nat} {m : BitVec 64} {val : Bool} :
    (opAt map k m false val).2 = true ↔ ∀ i, Hits k m i → getBit map i = val := by
  have hword : (opAt map k m false val).2 = true ↔
      ∀ j < 64, m.getLsbD j = true → (map k).getLsbD j = val := by
    change ((if val then m &&& map k else (m &&& map k) ^^^ m) == m) = true ↔ _
    rw [beq_iff_eq, BitVec.eq_of_getLsbD_eq_iff]
    refine forall₂_congr fun j _ => ?_
    cases val with
    | false =>
      rw [if_neg (by decide), BitVec.getLsbD_xor, BitVec.getLsbD_and]
      cases m.getLsbD j <;> cases (map k).getLsbD j <;> decide
    | true =>
      rw [if_pos rfl, BitVec.getLsbD_and]
      cases m.getLsbD j <;> cases (map k).getLsbD j <;> decide
  rw [hword]
  constructor
  · rintro h i ⟨rfl, hbit⟩
    exact h _ (Nat.mod_lt _ (by decide)) hbit
  · intro h j hj hbit
    have hdiv : (64 * k + j) / 64 = k := by omega
    have hmod : (64 * k + j) % 64 = j := by omega
    have hget := h (64 * k + j) ⟨hdiv, by rw [hmod]; exact hbit⟩
    rwa [getBit, hdiv, hmod] at hget

/-! ## Ranges of bits -/

theorem wholeWords_set (val : Bool) (n w : Nat) (map : Words) :
    (wholeWords true val n w map).2 = true ∧
      ∀ i, getBit (wholeWords true val n w map).1 i =
        if w ≤ i / 64 ∧ i / 64 < w + n then val else getBit map i := by
  induction n generalizing w map with
  | zero => exact ⟨rfl, fun i => (if_neg (by omega)).symm⟩
  | succ n ih =>
    rw [wholeWords]
    dsimp only
    rw [opAt_set_snd, if_pos rfl]
    obtain ⟨hr, hbits⟩ := ih (w + 1) (opAt map w (-1) true val).1
    refine ⟨hr, fun i => ?_⟩
    have hone : Hits w (-1) i ↔ i / 64 = w :=
      ⟨And.left, fun h => ⟨h, getLsbD_allOnes (Nat.mod_lt _ (by decide))⟩⟩
    rw [hbits, getBit_opAt]
    by_cases hw : i / 64 = w
    · rw [if_neg (by omega), if_pos (hone.mpr hw), if_pos (by omega)]
    · rw [if_neg (mt hone.mp hw)]
      exact if_congr (by omega) rfl rfl

theorem wholeWords_test (val : Bool) (n w : Nat) (map : Words) :
    (wholeWords false val n w map).1 = map ∧
      ((wholeWords false val n w map).2 = true ↔ ∀ i, w ≤ i / 64 ∧ i / 64 < w + n →
        getBit map i = val) := by
  induction n generalizing w with
  | zero => exact ⟨rfl, fun _ i hi => by omega, fun _ => rfl⟩
  | succ n ih =>
    rw [wholeWords]
    dsimp only
    rw [opAt_test_fst]
    obtain ⟨hmap, hr⟩ := ih (w + 1)
    have hone : (opAt map w (-1) false val).2 = true ↔ ∀ i, i / 64 = w → getBit map i = val := by
      rw [opAt_test_snd]
      exact forall_congr' fun i =>
        ⟨fun h hi => h ⟨hi, getLsbD_allOnes (Nat.mod_lt _ (by decide))⟩, fun h hi => h hi.1⟩
    split_ifs with hword
    · refine ⟨hmap, hr.trans ⟨fun h i hi => ?_, fun h i hi => h i (by omega)⟩⟩
      rcases Nat.lt_or_ge w (i / 64) with hlt | hge
      · exact h i (by omega)
      · exact hone.mp hword i (by omega)
    · refine ⟨rfl, fun h => absurd h (by decide),
        fun h => absurd (hone.mpr fun i hi => h i (by omega)) hword⟩

theorem hits_first (start nbits i : Nat) :
    Hits (start / 64) (firstMask (start % 64) ((start + nbits) % 64) false) i ↔
      i / 64 = start / 64 ∧ start % 64 ≤ i % 64 := by
  have hhead : start % 64 < 64 := Nat.mod_lt _ (by decide)
  have htail : (start + nbits) % 64 < 64 := Nat.mod_lt _ (by decide)
  rw [Hits, getLsbD_firstMask hhead htail (Nat.mod_lt _ (by decide))]
  exact and_congr_right fun _ => ⟨And.left, fun h => ⟨h, fun _ => Bool.noConfusion⟩⟩

theorem hits_single {start nbits : Nat} (hpos : nbits ≠ 0) (hsingle : start % 64 + nbits ≤ 64)
    (i : Nat) :
    Hits (start / 64) (firstMask (start % 64) ((start + nbits) % 64) true) i ↔ start ≤ i ∧
      i < start + nbits := by
  have hhead : start % 64 < 64 := Nat.mod_lt _ (by decide)
  have htail : (start + nbits) % 64 < 64 := Nat.mod_lt _ (by decide)
  rw [Hits, getLsbD_firstMask hhead htail (Nat.mod_lt _ (by decide))]
  constructor
  · rintro ⟨hword, hlow, hhigh⟩
    have hcut : (start + nbits) % 64 ≠ 0 → i % 64 < (start + nbits) % 64 := fun h => hhigh h rfl
    omega
  · rintro ⟨hlow, hhigh⟩
    refine ⟨by omega, by omega, fun hne _ => by omega⟩

theorem hits_last (start nbits i : Nat) :
    Hits ((start + nbits) / 64) (mask ((start + nbits) % 64)) i ↔
      i / 64 = (start + nbits) / 64 ∧ i % 64 < (start + nbits) % 64 := by
  rw [Hits, getLsbD_mask (Nat.mod_lt _ (by decide)), decide_eq_true_eq]

theorem mem_range_iff {start nbits : Nat} (hmulti : 64 < start % 64 + nbits) (i : Nat) :
    start ≤ i ∧ i < start + nbits ↔
      (i / 64 = start / 64 ∧ start % 64 ≤ i % 64) ∨
      ((start + (64 - start % 64)) / 64 ≤ i / 64 ∧ i / 64 < (start + (64 - start % 64)) / 64 +
        ((start + nbits) / 64 - (start + (64 - start % 64)) / 64)) ∨
      (i / 64 = (start + nbits) / 64 ∧ i % 64 < (start + nbits) % 64) := by
  have hw : (start + (64 - start % 64)) / 64 = start / 64 + 1 := by omega
  rw [hw]
  omega

theorem forRangeInMap_set (map : Words) (start nbits : Nat) (val : Bool) (i : Nat) :
    getBit (forRangeInMap map start nbits true val).1 i =
      if start ≤ i ∧ i < start + nbits then val else getBit map i := by
  unfold forRangeInMap
  dsimp only
  by_cases hzero : nbits = 0
  · rw [if_pos hzero, if_neg (by omega)]
  · rw [if_neg hzero, opAt_set_snd, Bool.not_true, Bool.false_or]
    by_cases hsingle : start % 64 + nbits ≤ 64
    · rw [decide_eq_true hsingle, if_pos rfl, getBit_opAt]
      exact if_congr (hits_single hzero hsingle i) rfl rfl
    · rw [decide_eq_false hsingle, if_neg (by decide),
        if_congr (mem_range_iff (by omega) i) rfl rfl]
      generalize hw : (start + (64 - start % 64)) / 64 = w
      generalize hmap : (opAt map (start / 64)
        (firstMask (start % 64) ((start + nbits) % 64) false) true val).1 = map₁
      obtain ⟨hr, hbits⟩ := wholeWords_set val ((start + nbits) / 64 - w) w map₁
      have hfirst : getBit map₁ i = _ := hmap ▸ getBit_opAt map (start / 64) _ val i
      rw [if_congr (hits_first start nbits i) rfl rfl] at hfirst
      rw [hr, Bool.not_true, if_neg (by decide)]
      by_cases htail : (start + nbits) % 64 = 0
      · rw [if_neg (not_not.mpr htail), hbits, hfirst]
        split_ifs <;> first | rfl | omega
      · rw [if_pos htail, getBit_opAt, if_congr (hits_last start nbits i) rfl rfl, hbits, hfirst]
        split_ifs <;> first | rfl | omega

theorem forRangeInMap_test (map : Words) (start nbits : Nat) (val : Bool) :
    (forRangeInMap map start nbits false val).2 = true ↔
      ∀ i, start ≤ i → i < start + nbits → getBit map i = val := by
  unfold forRangeInMap
  dsimp only
  by_cases hzero : nbits = 0
  · rw [if_pos hzero]
    exact ⟨fun _ i h₁ h₂ => by omega, fun _ => rfl⟩
  · rw [if_neg hzero, opAt_test_fst]
    by_cases hsingle : start % 64 + nbits ≤ 64
    · rw [decide_eq_true hsingle, Bool.or_true, if_pos rfl, opAt_test_snd]
      exact forall_congr' fun i => by rw [hits_single hzero hsingle i, and_imp]
    · rw [decide_eq_false hsingle, Bool.or_false]
      have hrange := mem_range_iff (by omega : 64 < start % 64 + nbits)
      generalize (start + (64 - start % 64)) / 64 = w at hrange ⊢
      have hfirst : (opAt map (start / 64) (firstMask (start % 64) ((start + nbits) % 64) false)
          false val).2 = true ↔ _ :=
        opAt_test_snd
      have hlast : (opAt map ((start + nbits) / 64) (mask ((start + nbits) % 64)) false val).2 =
          true ↔ _ :=
        opAt_test_snd
      simp only [hits_first, hits_last] at hfirst hlast
      obtain ⟨hmap, hwords⟩ := wholeWords_test val ((start + nbits) / 64 - w) w map
      -- nothing is tested in the last word if the range ends with a whole one
      have hnone : (start + nbits) % 64 = 0 →
          (opAt map ((start + nbits) / 64) (mask ((start + nbits) % 64)) false val).2 = true :=
        fun hzero => hlast.mpr fun i hi => absurd hi.2 (by omega)
      simp only [← and_imp, hrange, or_imp, forall_and]
      rw [← hfirst, ← hwords, ← hlast, hmap]
      split_ifs with h₁ h₂ h₃
      · rw [Bool.not_eq_true'] at h₁
        simp [h₁]
      · rw [Bool.not_eq_true'] at h₂
        simp [h₂]
      · rw [Bool.not_eq_true', Bool.not_eq_false] at h₁ h₂
        simp [h₁, h₂]
      · rw [Bool.not_eq_true', Bool.not_eq_false] at h₁ h₂
        simp [h₁, h₂, hnone (not_not.mp h₃)]

end Jerboa.Heap
