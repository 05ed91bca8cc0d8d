import Jerboa.Net.Address
import Mathlib.Data.Nat.Bitwise
import Mathlib.Data.List.TakeDrop
import Mathlib.Tactic.Ring

/-!
# Subnets

`net.IPNet`, `net.ParseCIDR` and the subnet rules of the network store
(`subnet.go`).  The masks, `Contains` and the address arithmetic of `nextIP`
work byte by byte, as the source does; the second half of the module gives
them their meaning as numbers for the prefix lengths `checkSubnet` permits.
-/

namespace Jerboa.Net.Subnet

open Net.Address

/-- A `net.IPNet` of the IPv4 family with the mask `CIDRMask(ones, 32)`. -/
structure IPNet where
  ip : IPv4
  ones : Nat
deriving DecidableEq, Repr

def maskByte (ones i : Nat) : UInt8 :=
  if 8 * (i + 1) ≤ ones then 255
  else ~~~((255 : UInt8) >>> UInt8.ofNat (ones - 8 * i))

def cidrMask (ones : Nat) : IPv4 :=
  ⟨maskByte ones 0, maskByte ones 1, maskByte ones 2, maskByte ones 3⟩

def IPNet.contains (n : IPNet) (ip : IPv4) : Bool :=
  n.ip.mask (cidrMask n.ones) = ip.mask (cidrMask n.ones)

def IPNet.toText (n : IPNet) : Text := n.ip.toText ++ '/' :: Nat.toDigits 10 n.ones

/-- What `net.ParseCIDR` returns: a network of one of the two families. -/
inductive CIDR where
  | v4 (net : IPNet)
  | v6 (ip : List UInt8) (ones : Nat)
deriving DecidableEq, Repr

/-- `dtoi`: a decimal number below `0xFFFFFF` that fills the whole text. -/
def dtoi (s : Text) : Option Nat :=
  if s ≠ [] ∧ s.all Char.isDigit ∧ decimalValue s < 0xFFFFFF then some (decimalValue s) else none

def parseCIDR (s : Text) : Option CIDR :=
  match s.span (· ≠ '/') with
  | (addr, _ :: mask) =>
    match addr.find? (fun c => c = '.' ∨ c = ':' ∨ c = '%'), dtoi mask with
    | some '.', some n => do
      let a ← parseIPv4 addr
      if n ≤ 32 then some (.v4 ⟨a.mask (cidrMask n), n⟩) else none
    | some ':', some n => do
      let a ← parseIPv6 addr
      if n ≤ 128 then
        some (.v6 (a.zipWith (· &&& ·) ((List.range 16).map (maskByte n))) n)
      else none
    | _, _ => none
  | _ => none

def minSubnetPrefix : Nat := 16
def maxSubnetPrefix : Nat := 29

def defaultSubnet : IPNet := ⟨⟨10, 100, 0, 0⟩, 16⟩

def privateRanges : List IPNet :=
  [⟨⟨10, 0, 0, 0⟩, 8⟩, ⟨⟨172, 16, 0, 0⟩, 12⟩, ⟨⟨192, 168, 0, 0⟩, 16⟩, ⟨⟨100, 64, 0, 0⟩, 10⟩]

def dnsAnycastIP : IPv4 := ⟨10, 53, 0, 53⟩

def inPrivateRange (n : IPNet) : Bool :=
  privateRanges.any fun r => r.contains n.ip && decide (r.ones ≤ n.ones)

inductive SubnetErr where
  | parseCIDR
  | onlyIPv4
  | prefixLength
  | notPrivate
  | containsDNS
  | hostConflict (conflict : Text)
deriving DecidableEq, Repr

/-- `checkSubnet`.  `hostConflict` stands for the host's own interfaces and
routes: it names the one that overlaps a subnet, or is empty. -/
def checkSubnet (hostConflict : IPNet → Text) : CIDR → Except SubnetErr IPNet
  | .v6 ip _ => if to4 ip = none then .error .onlyIPv4 else .error .prefixLength
  | .v4 n =>
    if n.ones < minSubnetPrefix ∨ maxSubnetPrefix < n.ones then .error .prefixLength
    else if ¬inPrivateRange n then .error .notPrivate
    else if n.contains dnsAnycastIP then .error .containsDNS
    else if hostConflict n ≠ [] then .error (.hostConflict (hostConflict n))
    else .ok n

def firstHost (n : IPNet) : IPv4 := { n.ip with b3 := n.ip.b3 + 1 }

/-- `parseSubnet` without the gateway, which is `firstHost` of the result. -/
def parseSubnet (hostConflict : IPNet → Text) (cidr : Text) : Except SubnetErr IPNet :=
  match parseCIDR cidr with
  | none => .error .parseCIDR
  | some c => checkSubnet hostConflict c

/-- The address `index` above the base, added byte by byte without carries,
or none outside the subnet. -/
def nextIP (n : IPNet) (index : Nat) : Option IPv4 :=
  let ip : IPv4 :=
    ⟨n.ip.b0 + UInt8.ofNat (index >>> 24), n.ip.b1 + UInt8.ofNat (index >>> 16),
      n.ip.b2 + UInt8.ofNat (index >>> 8), n.ip.b3 + UInt8.ofNat index⟩
  if n.contains ip then some ip else none

/-- The directed broadcast address: the base with all host bits set. -/
def broadcast (n : IPNet) : IPv4 :=
  let m := cidrMask n.ones
  ⟨n.ip.b0 ||| ~~~m.b0, n.ip.b1 ||| ~~~m.b1, n.ip.b2 ||| ~~~m.b2, n.ip.b3 ||| ~~~m.b3⟩

def networkOrBroadcast (n : IPNet) (ip : IPv4) : Bool :=
  ip = n.ip || ip = broadcast n

/-! ## Masks as divisions -/

def highMask (m : Nat) : UInt8 := ~~~((255 : UInt8) >>> UInt8.ofNat m)

theorem toNat_and_highMask (b : UInt8) {m : Nat} (hm : m < 8) :
    (b &&& highMask m).toNat = b.toNat / 2 ^ (8 - m) * 2 ^ (8 - m) := by
  apply forall_byte (P := fun b => ∀ m < 8,
    (b &&& highMask m).toNat = b.toNat / 2 ^ (8 - m) * 2 ^ (8 - m)) _ b m hm
  decide +kernel

theorem and_full (b : UInt8) : b &&& 255 = b :=
  UInt8.and_neg_one

def hostBits (ones i : Nat) : Nat := 8 - min 8 (ones - 8 * i)

theorem toNat_and_maskByte (b : UInt8) (ones i : Nat) :
    (b &&& maskByte ones i).toNat =
      b.toNat / 2 ^ hostBits ones i * 2 ^ hostBits ones i := by
  unfold maskByte hostBits
  split_ifs with hfull
  · rw [and_full, show min 8 (ones - 8 * i) = 8 by omega]
    simp
  · have hlt : ones - 8 * i < 8 := by omega
    rw [Nat.min_eq_right hlt.le]
    exact toNat_and_highMask b hlt

theorem toNat_mask_cidrMask (a : IPv4) {ones : Nat} (hones : ones ≤ 32) :
    (a.mask (cidrMask ones)).toNat = a.toNat / 2 ^ (32 - ones) * 2 ^ (32 - ones) := by
  have h0 := a.b0.toNat_lt
  have h1 := a.b1.toNat_lt
  have h2 := a.b2.toNat_lt
  have h3 := a.b3.toNat_lt
  simp only [IPv4.toNat, IPv4.mask, cidrMask, toNat_and_maskByte, hostBits]
  interval_cases ones <;> simp <;> omega

variable {n : IPNet}

theorem contains_iff {ip : IPv4} (hones : n.ones ≤ 32) :
    n.contains ip = true ↔
      n.ip.toNat / 2 ^ (32 - n.ones) = ip.toNat / 2 ^ (32 - n.ones) := by
  have hpos : 0 < 2 ^ (32 - n.ones) := by positivity
  simp only [IPNet.contains, decide_eq_true_eq]
  constructor
  · intro h
    have hn := congrArg IPv4.toNat h
    rw [toNat_mask_cidrMask _ hones, toNat_mask_cidrMask _ hones] at hn
    exact Nat.eq_of_mul_eq_mul_right hpos hn
  · intro h
    apply IPv4.toNat_injective
    rw [toNat_mask_cidrMask _ hones, toNat_mask_cidrMask _ hones, h]

/-! ## The addresses of a valid subnet

A subnet that passed `checkSubnet` has a prefix length of 16 to 29 and, since
`ParseCIDR` clears the host bits, an aligned base.  For such a subnet the
carry-free addition of `nextIP` is plain addition up to the last address.
-/

/-- Number of addresses of a subnet. -/
def IPNet.size (n : IPNet) : Nat := 2 ^ (32 - n.ones)

/-- Address `i` of a subnet, counted from its base. -/
def IPNet.addr (n : IPNet) (i : Nat) : IPv4 := IPv4.ofNat (n.ip.toNat + i)

structure IPNet.Valid (n : IPNet) : Prop where
  min : minSubnetPrefix ≤ n.ones
  max : n.ones ≤ maxSubnetPrefix
  aligned : n.ip.mask (cidrMask n.ones) = n.ip

variable {i : Nat}

namespace IPNet.Valid

variable {n : IPNet}

section

variable (h : n.Valid)
include h

theorem ones_le : n.ones ≤ 32 := by
  have := h.max
  unfold maxSubnetPrefix at this
  omega

theorem mod_size : n.ip.toNat % n.size = 0 := by
  have hmask := toNat_mask_cidrMask n.ip h.ones_le
  rw [h.aligned] at hmask
  rw [hmask]
  exact Nat.mul_mod_left _ _

theorem size_ge : 8 ≤ n.size := by
  have hle : 3 ≤ 32 - n.ones := by
    have := h.max
    unfold maxSubnetPrefix at this
    omega
  calc 8 = 2 ^ 3 := by norm_num
    _ ≤ 2 ^ (32 - n.ones) := Nat.pow_le_pow_right (by norm_num) hle

theorem add_size_le : n.ip.toNat + n.size ≤ 2 ^ 32 := by
  have hlt := n.ip.toNat_lt
  have hmod := h.mod_size
  have hdvd : n.size ∣ 2 ^ 32 := Nat.pow_dvd_pow 2 (by omega)
  obtain ⟨q, hq⟩ := hdvd
  obtain ⟨k, hk⟩ := Nat.dvd_of_mod_eq_zero hmod
  rw [hk, hq] at hlt
  have hkq : k < q := Nat.lt_of_mul_lt_mul_left hlt
  rw [hk, hq]
  calc n.size * k + n.size = n.size * (k + 1) := by ring
    _ ≤ n.size * q := Nat.mul_le_mul_left _ hkq

theorem toNat_addr (hi : i < n.size) :
    (n.addr i).toNat = n.ip.toNat + i := by
  have := h.add_size_le
  exact IPv4.toNat_ofNat (by omega)

theorem addr_injective {i j : Nat} (hi : i < n.size) (hj : j < n.size)
    (heq : n.addr i = n.addr j) : i = j := by
  have hnat := congrArg IPv4.toNat heq
  rw [h.toNat_addr hi, h.toNat_addr hj] at hnat
  omega

theorem contains_iff_range (ip : IPv4) :
    n.contains ip = true ↔ n.ip.toNat ≤ ip.toNat ∧ ip.toNat < n.ip.toNat + n.size := by
  have hpos : 0 < n.size := by have := h.size_ge; omega
  rw [contains_iff h.ones_le]
  change n.ip.toNat / n.size = ip.toNat / n.size ↔ _
  obtain ⟨k, hk⟩ := Nat.dvd_of_mod_eq_zero h.mod_size
  rw [hk, Nat.mul_div_cancel_left _ hpos, eq_comm, Nat.div_eq_iff hpos]
  constructor
  · rintro ⟨hlo, hhi⟩
    rw [Nat.mul_comm k] at hlo hhi
    omega
  · rintro ⟨hlo, hhi⟩
    rw [Nat.mul_comm k]
    omega

theorem contains_addr (hi : i < n.size) :
    n.contains (n.addr i) = true := by
  rw [h.contains_iff_range, h.toNat_addr hi]
  omega

theorem exists_addr {ip : IPv4} (hip : n.contains ip = true) :
    ∃ i, i < n.size ∧ ip = n.addr i := by
  rw [h.contains_iff_range] at hip
  refine ⟨ip.toNat - n.ip.toNat, by omega, ?_⟩
  apply IPv4.toNat_injective
  rw [h.toNat_addr (by omega)]
  omega

end

@[simp] theorem addr_zero (n : IPNet) : n.addr 0 = n.ip := by
  simp [IPNet.addr, IPv4.ofNat_toNat]

end IPNet.Valid

/-- The bytes that `nextIP` computes, before it looks at the subnet. -/
def addBytes (ip : IPv4) (index : Nat) : IPv4 :=
  ⟨ip.b0 + UInt8.ofNat (index >>> 24), ip.b1 + UInt8.ofNat (index >>> 16),
    ip.b2 + UInt8.ofNat (index >>> 8), ip.b3 + UInt8.ofNat index⟩

theorem nextIP_eq (n : IPNet) (index : Nat) :
    nextIP n index =
      if n.contains (addBytes n.ip index) then some (addBytes n.ip index) else none := rfl

theorem toNat_addBytes_of_lt (h : n.Valid) (hi : i < n.size) :
    (addBytes n.ip i).toNat = n.ip.toNat + i := by
  have h0 := n.ip.b0.toNat_lt
  have h1 := n.ip.b1.toNat_lt
  have h2 := n.ip.b2.toNat_lt
  have h3 := n.ip.b3.toNat_lt
  have hmod := h.mod_size
  have hmin := h.min
  have hmax := h.max
  unfold minSubnetPrefix at hmin
  unfold maxSubnetPrefix at hmax
  unfold IPNet.size at hi hmod
  simp only [addBytes, IPv4.toNat, UInt8.toNat_add, UInt8.toNat_ofNat',
    Nat.shiftRight_eq_div_pow] at hmod ⊢
  generalize n.ones = ones at *
  interval_cases ones <;> simp at hi hmod <;> omega

theorem nextIP_of_lt (h : n.Valid) (hi : i < n.size) :
    nextIP n i = some (n.addr i) := by
  have heq : addBytes n.ip i = n.addr i := by
    apply IPv4.toNat_injective
    rw [toNat_addBytes_of_lt h hi, h.toNat_addr hi]
  rw [nextIP_eq, heq, if_pos (h.contains_addr hi)]

theorem nextIP_size (h : n.Valid) : nextIP n n.size = none := by
  have hnot : ¬n.contains (addBytes n.ip n.size) = true := by
    rw [h.contains_iff_range]
    have h0 := n.ip.b0.toNat_lt
    have h1 := n.ip.b1.toNat_lt
    have h2 := n.ip.b2.toNat_lt
    have h3 := n.ip.b3.toNat_lt
    have hmod := h.mod_size
    have hmin := h.min
    have hmax := h.max
    unfold minSubnetPrefix at hmin
    unfold maxSubnetPrefix at hmax
    unfold IPNet.size at hmod ⊢
    simp only [addBytes, IPv4.toNat, UInt8.toNat_add, UInt8.toNat_ofNat',
      Nat.shiftRight_eq_div_pow] at hmod ⊢
    generalize n.ones = ones at *
    interval_cases ones <;> simp at hmod ⊢ <;> omega
  rw [nextIP_eq, if_neg hnot]

theorem firstHost_eq (h : n.Valid) : firstHost n = n.addr 1 := by
  have hsize := h.size_ge
  apply IPv4.toNat_injective
  rw [h.toNat_addr (by omega), ← toNat_addBytes_of_lt h (i := 1) (by omega)]
  simp [firstHost, addBytes, IPv4.toNat]

theorem toNat_or_not_highMask (b : UInt8) {m : Nat} (hm : m < 8)
    (hb : b &&& highMask m = b) :
    (b ||| ~~~highMask m).toNat = b.toNat + (2 ^ (8 - m) - 1) := by
  apply forall_byte (P := fun b => ∀ m < 8, b &&& highMask m = b →
    (b ||| ~~~highMask m).toNat = b.toNat + (2 ^ (8 - m) - 1)) _ b m hm hb
  decide +kernel

theorem toNat_or_not_maskByte (b : UInt8) (ones i : Nat)
    (hb : b &&& maskByte ones i = b) :
    (b ||| ~~~maskByte ones i).toNat = b.toNat + (2 ^ hostBits ones i - 1) := by
  unfold hostBits
  unfold maskByte at hb ⊢
  split_ifs at hb ⊢ with hfull
  · rw [show min 8 (ones - 8 * i) = 8 by omega]
    simp
  · have hlt : ones - 8 * i < 8 := by omega
    rw [Nat.min_eq_right hlt.le]
    exact toNat_or_not_highMask b hlt hb

theorem broadcast_eq (h : n.Valid) : broadcast n = n.addr (n.size - 1) := by
  have hsize := h.size_ge
  have hmin := h.min
  have hmax := h.max
  unfold maxSubnetPrefix at hmax
  have hal := h.aligned
  simp only [IPv4.mask, cidrMask, IPv4.ext_iff] at hal
  obtain ⟨e0, e1, e2, e3⟩ := hal
  apply IPv4.toNat_injective
  rw [h.toNat_addr (by omega)]
  simp only [broadcast, cidrMask, IPv4.toNat, toNat_or_not_maskByte _ _ _ e0,
    toNat_or_not_maskByte _ _ _ e1, toNat_or_not_maskByte _ _ _ e2,
    toNat_or_not_maskByte _ _ _ e3, IPNet.size, hostBits]
  generalize n.ones = ones at *
  interval_cases ones <;> simp <;> omega

/-! ## Subnets and their texts -/

theorem mask_mask (a m : IPv4) : (a.mask m).mask m = a.mask m := by
  simp [IPv4.mask, UInt8.and_assoc]

theorem parseSubnet_valid {hostConflict : IPNet → Text} {cidr : Text}
    (h : parseSubnet hostConflict cidr = .ok n) : n.Valid := by
  have hmasked : ∀ {m : IPNet}, parseCIDR cidr = some (.v4 m) →
      m.ip.mask (cidrMask m.ones) = m.ip := by
    intro m hm
    unfold parseCIDR at hm
    split at hm
    · split at hm
      · obtain ⟨a, -, ha⟩ := Option.bind_eq_some_iff.mp hm
        split_ifs at ha
        cases ha
        exact mask_mask _ _
      · obtain ⟨a, -, ha⟩ := Option.bind_eq_some_iff.mp hm
        split_ifs at ha
        cases ha
      · cases hm
    · cases hm
  unfold parseSubnet at h
  split at h
  · cases h
  · rename_i c hc
    cases c with
    | v6 =>
      simp only [checkSubnet] at h
      split_ifs at h
    | v4 =>
      simp only [checkSubnet] at h
      split_ifs at h with hprefix
      cases h
      exact ⟨by omega, by omega, hmasked hc⟩

theorem toText_eq_append (a : IPv4) :
    ∃ rest, a.toText = octetText a.b0 ++ '.' :: rest := by
  refine ⟨octetText a.b1 ++ '.' :: (octetText a.b2 ++ '.' :: octetText a.b3), ?_⟩
  simp [IPv4.toText, List.intercalate, List.intersperse]

theorem isDigit_or_dot_of_mem_toText {a : IPv4} {c : Char} (hc : c ∈ a.toText) :
    c.isDigit = true ∨ c = '.' := by
  simp only [IPv4.toText, List.intercalate, List.intersperse, List.flatten_cons,
    List.flatten_nil, List.mem_append, List.mem_singleton, List.not_mem_nil, or_false] at hc
  rcases hc with h | h | h | h | h | h | h
  · exact .inl (isDigit_of_mem_octetText h)
  · exact .inr h
  · exact .inl (isDigit_of_mem_octetText h)
  · exact .inr h
  · exact .inl (isDigit_of_mem_octetText h)
  · exact .inr h
  · exact .inl (isDigit_of_mem_octetText h)

theorem slash_notMem_toText (a : IPv4) : '/' ∉ a.toText := by
  intro h
  rcases isDigit_or_dot_of_mem_toText h with h | h <;> revert h <;> decide

theorem find?_toText (a : IPv4) :
    a.toText.find? (fun c => c = '.' ∨ c = ':' ∨ c = '%') = some '.' := by
  obtain ⟨rest, hrest⟩ := toText_eq_append a
  have hnone : (octetText a.b0).find? (fun c => c = '.' ∨ c = ':' ∨ c = '%') = none := by
    rw [List.find?_eq_none]
    intro c hc hspecial
    have hdigit := isDigit_of_mem_octetText hc
    simp only [decide_eq_true_eq] at hspecial
    rcases hspecial with rfl | rfl | rfl <;> revert hdigit <;> decide
  rw [hrest, List.find?_append, hnone]
  simp

theorem parseTo4_toText (a : IPv4) : parseTo4 a.toText = some a := by
  have hparse : parseIP a.toText = some a.to16 := by
    unfold parseIP
    rw [find?_toText]
    simp [parseIPv4_toText]
  rw [parseTo4, hparse]
  rfl

theorem toText_ne_nil (a : IPv4) : a.toText ≠ [] := by
  obtain ⟨rest, hrest⟩ := toText_eq_append a
  simp [hrest]

theorem dtoi_toDigits {ones : Nat} (h : ones ≤ 32) : dtoi (Nat.toDigits 10 ones) = some ones := by
  have hall : ∀ n < 33, dtoi (Nat.toDigits 10 n) = some n := by
    decide +kernel
  exact hall ones (by omega)

theorem parseCIDR_toText (h : n.Valid) : parseCIDR n.toText = some (.v4 n) := by
  have hspan : n.toText.span (· ≠ '/') = (n.ip.toText, '/' :: Nat.toDigits 10 n.ones) := by
    have hne : ∀ c ∈ n.ip.toText, decide (c ≠ '/') = true := by
      intro c hc
      rw [decide_eq_true_eq]
      rintro rfl
      exact slash_notMem_toText _ hc
    rw [List.span_eq_takeWhile_dropWhile, IPNet.toText, List.takeWhile_append_of_pos hne,
      List.dropWhile_append_of_pos hne]
    simp
  unfold parseCIDR
  rw [hspan]
  simp only [find?_toText, dtoi_toDigits h.ones_le, parseIPv4_toText]
  simp [h.ones_le, h.aligned]

end Jerboa.Net.Subnet
