import Jerboa.Heap.Bitmap

/-!
# What the bitmap finds

A search that starts at an aligned bit finds aligned bits that are all clear.  In a search
that does not, the mask of a candidate can leave its word, and the bits that are lost are
not looked at.
-/

namespace Jerboa.Heap

theorem le_two_pow_findOrder (x : Nat) : x ≤ 2 ^ findOrder x := by
  unfold findOrder
  split_ifs with hx
  · have hlt : x - 1 < 2 ^ (Nat.log2 (x - 1) + 1) := Nat.lt_log2_self
    omega
  · rw [Nat.pow_zero]
    omega

theorem findOrder_le_iff {x k : Nat} : findOrder x ≤ k ↔ x ≤ 2 ^ k := by
  unfold findOrder
  split_ifs with hx
  · have hne : x - 1 ≠ 0 := by omega
    rw [Nat.add_one_le_iff, Nat.log2_lt hne]
    omega
  · have hpos : 0 < 2 ^ k := Nat.two_pow_pos k
    exact ⟨fun _ => by omega, fun _ => Nat.zero_le k⟩

theorem two_pow_findOrder_dvd_of_lt {x : Nat} (h : 2 ^ findOrder x < 64) :
    2 ^ findOrder x ∣ 64 := by
  have hlt : findOrder x < 6 := (Nat.pow_lt_pow_iff_right (by decide : 1 < 2)).mp
    (h : 2 ^ findOrder x < 2 ^ 6)
  exact Nat.pow_dvd_pow 2 (Nat.le_of_lt hlt)

def Clear (map : Words) (start nbits : Nat) : Prop :=
  ∀ i, start ≤ i → i < start + nbits → getBit map i = false

variable {map : Words}

theorem multiWord_spec {nbits stride endbit fuel bit b : Nat}
    (h : multiWord map nbits stride endbit fuel bit = some b) :
    (∃ k, b = bit + k * stride) ∧ b ≤ endbit ∧ Clear map b nbits := by
  induction fuel generalizing bit with
  | zero => cases h
  | succ fuel ih =>
    rw [multiWord] at h
    split_ifs at h with hend hclear
    · cases h
      exact ⟨⟨0, by omega⟩, by omega, (forRangeInMap_test map b nbits false).mp hclear⟩
    · obtain ⟨⟨k, hk⟩, hrest⟩ := ih h
      exact ⟨⟨k + 1, by rw [hk, Nat.succ_mul]; omega⟩, hrest⟩

theorem inWord_spec {bw : BitVec 64} {nbits stride endbit bit fuel offset found : Nat}
    (hoffset : offset < 64)
    (h : inWord bw stride endbit bit fuel offset (mask nbits <<< offset) = .found found) :
    (∃ k, found = offset + k * stride) ∧ found < 64 ∧ bit + found ≤ endbit ∧ bw &&&
      (mask nbits <<< found) = 0 := by
  induction fuel generalizing offset with
  | zero => cases h
  | succ fuel ih =>
    rw [inWord] at h
    split_ifs at h with hend hclear hnext
    · cases h
      exact ⟨⟨0, by omega⟩, hoffset, by omega, hclear⟩
    · rw [← BitVec.shiftLeft_add] at h
      obtain ⟨⟨k, hk⟩, hrest⟩ := ih hnext h
      exact ⟨⟨k + 1, by rw [hk, Nat.succ_mul]; omega⟩, hrest⟩

theorem clear_of_mask {base offset nbits : Nat} (hbase : base % 64 = 0) (hnbits : nbits < 64)
    (hfit : offset + nbits ≤ 64) (h : map (base / 64) &&& (mask nbits <<< offset) = 0) :
    Clear map (base + offset) nbits := by
  intro i hlow hhigh
  have hdiv : i / 64 = base / 64 := by omega
  have hlt : i % 64 < 64 := Nat.mod_lt _ (by decide)
  have hbit := congrArg (BitVec.getLsbD · (i % 64)) h
  have hmask : (mask nbits <<< offset).getLsbD (i % 64) = true := by
    rw [BitVec.getLsbD_shiftLeft, getLsbD_mask hnbits]
    simp only [Bool.and_eq_true, decide_eq_true_eq, Bool.not_eq_true', decide_eq_false_iff_not]
    omega
  rw [BitVec.getLsbD_and, hmask, Bool.and_true] at hbit
  rw [getBit, hdiv]
  exact hbit.trans BitVec.getLsbD_zero

theorem singleWord_spec {nbits stride endbit fuel bit b : Nat} (hstride : stride ∣ 64)
    (hlt : stride < 64) (hnbits : nbits ≤ stride) (hbit : stride ∣ bit)
    (h : singleWord map nbits stride endbit fuel bit = some b) :
    bit ≤ b ∧ stride ∣ b ∧ b ≤ endbit ∧ Clear map b nbits := by
  induction fuel generalizing bit with
  | zero => cases h
  | succ fuel ih =>
    rw [singleWord] at h
    dsimp only at h
    have hbase : stride ∣ bit - bit % 64 := by
      have hdvd : 64 ∣ bit - bit % 64 := Nat.dvd_sub_mod bit
      exact Nat.dvd_trans hstride hdvd
    have hnext : stride ∣ bit - bit % 64 + 64 := Nat.dvd_add hbase hstride
    split_ifs at h with hend hfull
    · obtain ⟨hle, hrest⟩ := ih hnext h
      exact ⟨by omega, hrest⟩
    · cases hfound : inWord (map ((bit - bit % 64) / 64)) stride endbit (bit - bit % 64) 64
        (bit % 64) (mask nbits <<< (bit % 64)) with
      | found offset =>
        rw [hfound] at h
        cases h
        obtain ⟨⟨k, hk⟩, hoffset, hle, hclear⟩ := inWord_spec (Nat.mod_lt _ (by decide)) hfound
        have hdvd : stride ∣ offset := by
          rw [hk]
          exact Nat.dvd_add ((Nat.dvd_mod_iff hstride).mpr hbit) (Nat.dvd_mul_left _ _)
        -- the next multiple of the stride is still in the word
        have hfit : offset + stride ≤ 64 := by
          obtain ⟨a, ha⟩ := hdvd
          obtain ⟨c, hc⟩ := hstride
          have hac : a < c := by
            by_contra hge
            have hmul : stride * c ≤ stride * a := Nat.mul_le_mul_left _ (by omega)
            omega
          have hmul : stride * (a + 1) ≤ stride * c := Nat.mul_le_mul_left _ hac
          rw [Nat.mul_succ] at hmul
          omega
        refine ⟨by omega, Nat.dvd_add hbase hdvd, hle, ?_⟩
        exact clear_of_mask (by omega) (by omega) (by omega) hclear
      | beyond =>
        rw [hfound] at h
        cases h
      | exhausted =>
        rw [hfound] at h
        obtain ⟨hle, hrest⟩ := ih hnext h
        exact ⟨by omega, hrest⟩

def SetRange (map map' : Words) (start nbits : Nat) (val : Bool) : Prop :=
  ∀ i, getBit map' i = if start ≤ i ∧ i < start + nbits then val else getBit map i

variable {b b' : Bitmap}

theorem Bitmap.allocInternal_spec {nbits startbit endbit bit base : Nat} (hbase : 64 ∣ base)
    (hstart : 2 ^ findOrder nbits ∣ base + startbit)
    (h : b.allocInternal nbits startbit endbit = some (b', bit)) :
    startbit ≤ bit ∧ bit + nbits ≤ endbit ∧ bit + nbits ≤ b.maxbits ∧
      2 ^ findOrder nbits ∣ base + bit ∧
      Clear b.map bit nbits ∧ b'.maxbits = b.maxbits ∧ SetRange b.map b'.map bit nbits true := by
  unfold allocInternal at h
  dsimp only at h
  split_ifs at h with hshort hwide
  · obtain ⟨bit', hfound, heq⟩ := Option.map_eq_some_iff.mp h
    cases heq
    obtain ⟨⟨k, rfl⟩, hle, hclear⟩ := multiWord_spec hfound
    refine ⟨by omega, by omega, by omega, ?_, hclear, rfl, forRangeInMap_set b.map _ nbits true⟩
    rw [← Nat.add_assoc]
    exact Nat.dvd_add hstart (Nat.dvd_mul_left _ _)
  · obtain ⟨bit', hfound, heq⟩ := Option.map_eq_some_iff.mp h
    cases heq
    have hlt : 2 ^ findOrder nbits < 64 := Nat.lt_of_not_le hwide
    have hdvd := two_pow_findOrder_dvd_of_lt hlt
    have hstart' : 2 ^ findOrder nbits ∣ startbit :=
      (Nat.dvd_add_right (Nat.dvd_trans hdvd hbase)).mp hstart
    obtain ⟨hge, hbit, hle, hclear⟩ := singleWord_spec hdvd hlt
      (le_two_pow_findOrder nbits) hstart' hfound
    exact ⟨hge, by omega, by omega, Nat.dvd_add (Nat.dvd_trans hdvd hbase) hbit, hclear, rfl,
      forRangeInMap_set b.map _ nbits true⟩

theorem Bitmap.dealloc_spec {bit size : Nat} (h : b.dealloc bit size = some b') :
    b'.maxbits = b.maxbits ∧ SetRange b.map b'.map bit size false := by
  unfold dealloc at h
  split_ifs at h
  cases h
  exact ⟨rfl, forRangeInMap_set b.map bit size false⟩

theorem Bitmap.exists_dealloc {b : Bitmap} {bit size : Nat} (hmax : bit + size ≤ b.maxbits)
    (hset : ∀ i, bit ≤ i → i < bit + size → getBit b.map i = true) :
    ∃ b', b.dealloc bit size = some b' := by
  have htest := (forRangeInMap_test b.map bit size true).mpr hset
  rw [dealloc, if_neg (by omega), if_neg (by rw [htest]; decide)]
  exact ⟨_, rfl⟩

theorem Bitmap.rangeCheckAndSet_spec {start nbits : Nat} {validate set : Bool}
    (h : b.rangeCheckAndSet start nbits validate set = some b') :
    b'.maxbits = b.maxbits ∧ SetRange b.map b'.map start nbits set ∧
      (validate = true → ∀ i, start ≤ i → i < start + nbits → getBit b.map i = !set) := by
  unfold rangeCheckAndSet at h
  split_ifs at h with hmax htest
  cases h
  refine ⟨rfl, forRangeInMap_set b.map start nbits set, fun hvalidate => ?_⟩
  rw [hvalidate, Bool.true_and, Bool.not_eq_true', Bool.not_eq_false] at htest
  exact (forRangeInMap_test b.map start nbits !set).mp htest

theorem Bitmap.exists_rangeCheckAndSet {b : Bitmap} {start nbits : Nat} {validate set : Bool}
    (hpos : 0 < nbits) (hmax : start + nbits ≤ b.maxbits)
    (hvalid : validate = true → ∀ i, start ≤ i → i < start + nbits → getBit b.map i = !set) :
    ∃ b', b.rangeCheckAndSet start nbits validate set = some b' := by
  rw [rangeCheckAndSet, if_neg (by omega), if_neg]
  · exact ⟨_, rfl⟩
  · rw [Bool.and_eq_true, Bool.not_eq_true', not_and, Bool.not_eq_false]
    exact fun hvalidate => (forRangeInMap_test b.map start nbits !set).mpr (hvalid hvalidate)

end Jerboa.Heap
