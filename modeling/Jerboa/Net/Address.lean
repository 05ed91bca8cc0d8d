import Jerboa.Lib.Delimited
import Mathlib.Data.List.Basic
import Mathlib.Tactic.IntervalCases

/-!
# Address texts

The network store keeps its leases as texts, and the daemon compares those
texts byte by byte.  This module models the part of Go's `net` package that
turns texts into addresses and back: `net.ParseIP` with all the spellings it
accepts (dotted decimal and every IPv6 form of a mapped IPv4 address) and
`IP.String` for IPv4, which prints one spelling only.
-/

namespace Jerboa.Net.Address

open List Lib

/-- A Go string, as its characters. -/
abbrev Text := List Char

instance : LawfulBEq Text := inferInstanceAs (LawfulBEq (List Char))

/-- The four bytes of an IPv4 `net.IP`. -/
@[ext] structure IPv4 where
  b0 : UInt8
  b1 : UInt8
  b2 : UInt8
  b3 : UInt8
deriving DecidableEq, Repr

namespace IPv4

def toNat (a : IPv4) : Nat :=
  a.b0.toNat * 2 ^ 24 + a.b1.toNat * 2 ^ 16 + a.b2.toNat * 2 ^ 8 + a.b3.toNat

def ofNat (n : Nat) : IPv4 :=
  ⟨UInt8.ofNat (n / 2 ^ 24), UInt8.ofNat (n / 2 ^ 16), UInt8.ofNat (n / 2 ^ 8), UInt8.ofNat n⟩

theorem toNat_lt (a : IPv4) : a.toNat < 2 ^ 32 := by
  have h0 := a.b0.toNat_lt
  have h1 := a.b1.toNat_lt
  have h2 := a.b2.toNat_lt
  have h3 := a.b3.toNat_lt
  unfold toNat
  omega

theorem toNat_injective {a b : IPv4} (h : a.toNat = b.toNat) : a = b := by
  have ha0 := a.b0.toNat_lt
  have ha1 := a.b1.toNat_lt
  have ha2 := a.b2.toNat_lt
  have ha3 := a.b3.toNat_lt
  have hb0 := b.b0.toNat_lt
  have hb1 := b.b1.toNat_lt
  have hb2 := b.b2.toNat_lt
  have hb3 := b.b3.toNat_lt
  unfold toNat at h
  obtain ⟨a0, a1, a2, a3⟩ := a
  obtain ⟨c0, c1, c2, c3⟩ := b
  simp only [mk.injEq, ← UInt8.toNat_inj] at *
  omega

theorem toNat_ofNat {n : Nat} (h : n < 2 ^ 32) : (ofNat n).toNat = n := by
  simp only [toNat, ofNat, UInt8.toNat_ofNat']
  omega

theorem ofNat_toNat (a : IPv4) : ofNat a.toNat = a :=
  toNat_injective (toNat_ofNat a.toNat_lt)

end IPv4

def IPv4.mask (a m : IPv4) : IPv4 :=
  ⟨a.b0 &&& m.b0, a.b1 &&& m.b1, a.b2 &&& m.b2, a.b3 &&& m.b3⟩

def octetText (b : UInt8) : Text := Nat.toDigits 10 b.toNat

/-- `IP.String` of an IPv4 address: dotted decimal without leading zeros. -/
def IPv4.toText (a : IPv4) : Text :=
  ['.'].intercalate [octetText a.b0, octetText a.b1, octetText a.b2, octetText a.b3]

/-! ## Parsing -/

def decimalValue (ds : Text) : Nat :=
  ds.foldl (fun acc c => acc * 10 + (c.toNat - '0'.toNat)) 0

/-- One field of a dotted decimal address: digits only, no leading zero, at
most 255. -/
def parseOctet (ds : Text) : Option UInt8 :=
  if ds ≠ [] ∧ ds.all Char.isDigit ∧ (ds.head? ≠ some '0' ∨ ds.length = 1) ∧
      decimalValue ds ≤ 255 then
    some (UInt8.ofNat (decimalValue ds))
  else
    none

def parseIPv4 (s : Text) : Option IPv4 :=
  match s.splitOn '.' with
  | [d0, d1, d2, d3] => do
    let b0 ← parseOctet d0
    let b1 ← parseOctet d1
    let b2 ← parseOctet d2
    let b3 ← parseOctet d3
    return ⟨b0, b1, b2, b3⟩
  | _ => none

def hexDigit (c : Char) : Option Nat :=
  if '0' ≤ c ∧ c ≤ '9' then some (c.toNat - '0'.toNat)
  else if 'a' ≤ c ∧ c ≤ 'f' then some (c.toNat - 'a'.toNat + 10)
  else if 'A' ≤ c ∧ c ≤ 'F' then some (c.toNat - 'A'.toNat + 10)
  else none

def hexValue (ds : Text) : Nat :=
  ds.foldl (fun acc c => acc * 16 + (hexDigit c).getD 0) 0

/-- The loop of `netip.parseIPv6` over the groups of an address.  `groups` are
the bytes read so far and `ellipsis` the position of `::` among them.  The
result has the unread rest of the text last. -/
def parseGroups : Nat → Text → List UInt8 → Option Nat → Option (List UInt8 × Option Nat × Text)
  | 0, s, groups, ellipsis => some (groups, ellipsis, s)
  | fuel + 1, s, groups, ellipsis =>
    let digits := s.takeWhile (fun c => (hexDigit c).isSome)
    let rest := s.dropWhile (fun c => (hexDigit c).isSome)
    if digits = [] ∨ 4 < digits.length then none
    else match rest with
      | '.' :: _ =>
        -- the rest is an embedded IPv4 address, which ends the text
        if (ellipsis = none ∧ groups.length ≠ 12) ∨ 16 < groups.length + 4 then none
        else do
          let a ← parseIPv4 s
          return (groups ++ [a.b0, a.b1, a.b2, a.b3], ellipsis, [])
      | _ =>
        let value := hexValue digits
        let groups := groups ++ [UInt8.ofNat (value / 256), UInt8.ofNat value]
        match rest with
        | [] => some (groups, ellipsis, [])
        | ':' :: ':' :: rest =>
          if ellipsis.isSome then none
          else if rest = [] then some (groups, some groups.length, [])
          else parseGroups fuel rest groups (some groups.length)
        | [':'] => none
        | ':' :: rest => parseGroups fuel rest groups ellipsis
        | _ => none

def expandEllipsis (groups : List UInt8) : Option Nat → Option (List UInt8)
  | none => if groups.length = 16 then some groups else none
  | some e =>
    if groups.length < 16 then
      some (groups.take e ++ List.replicate (16 - groups.length) 0 ++ groups.drop e)
    else none

/-- `netip.parseIPv6`.  A text with a zone (`%`) is not an address here:
`net.ParseIP` refuses it. -/
def parseIPv6 (s : Text) : Option (List UInt8) :=
  if s.contains '%' then none
  else match s with
    | [':', ':'] => some (List.replicate 16 0)
    | ':' :: ':' :: s => finish (parseGroups 8 s [] (some 0))
    | s => finish (parseGroups 8 s [] none)
where
  finish : Option (List UInt8 × Option Nat × Text) → Option (List UInt8)
    | some (groups, ellipsis, []) => expandEllipsis groups ellipsis
    | _ => none

def IPv4.to16 (a : IPv4) : List UInt8 :=
  [0, 0, 0, 0, 0, 0, 0, 0, 0, 0, 255, 255, a.b0, a.b1, a.b2, a.b3]

def to4 : List UInt8 → Option IPv4
  | [0, 0, 0, 0, 0, 0, 0, 0, 0, 0, 255, 255, b0, b1, b2, b3] => some ⟨b0, b1, b2, b3⟩
  | _ => none

/-- `net.ParseIP`: the first of `.`, `:` and `%` tells the two families apart.
The result is the 16 byte form. -/
def parseIP (s : Text) : Option (List UInt8) :=
  match s.find? (fun c => c = '.' ∨ c = ':' ∨ c = '%') with
  | some '.' => (parseIPv4 s).map IPv4.to16
  | some ':' => parseIPv6 s
  | _ => none

/-- The IPv4 address a text names, as `parsed.To4()` of its `net.ParseIP`. -/
def parseTo4 (s : Text) : Option IPv4 := (parseIP s).bind to4

/-! ## The characters of an address -/

def addressChar (c : Char) : Bool := (hexDigit c).isSome || c == ':' || c == '.'

theorem addressChar_of_isDigit {c : Char} (h : c.isDigit = true) : addressChar c = true := by
  have hle : '0' ≤ c ∧ c ≤ '9' := by simpa [Char.isDigit, Char.le_def] using h
  simp [addressChar, hexDigit, hle]

theorem isDigit_of_parseOctet {ds : Text} {b : UInt8} (h : parseOctet ds = some b) :
    ∀ c ∈ ds, c.isDigit = true := by
  unfold parseOctet at h
  split_ifs at h with hds
  exact all_eq_true.mp hds.2.1

theorem addressChar_of_parseIPv4 {s : Text} {a : IPv4} (h : parseIPv4 s = some a) :
    ∀ c ∈ s, addressChar c = true := by
  unfold parseIPv4 at h
  split at h
  · rename_i d0 d1 d2 d3 hsplit
    simp only [bind, Option.bind_eq_some_iff] at h
    obtain ⟨b0, h0, b1, h1, b2, h2, b3, h3, -⟩ := h
    intro c hc
    have hjoin : ['.'].intercalate (s.splitOn '.') = s := intercalate_splitOn '.'
    rw [← hjoin, hsplit] at hc
    rcases Delimited.mem_intercalate hc with rfl | ⟨part, hpart, hmem⟩
    · rfl
    · refine addressChar_of_isDigit ?_
      simp only [mem_cons, not_mem_nil, or_false] at hpart
      rcases hpart with rfl | rfl | rfl | rfl
      · exact isDigit_of_parseOctet h0 c hmem
      · exact isDigit_of_parseOctet h1 c hmem
      · exact isDigit_of_parseOctet h2 c hmem
      · exact isDigit_of_parseOctet h3 c hmem
  · cases h

theorem addressChar_of_parseGroups {fuel : Nat} {s rest : Text} {groups groups' : List UInt8}
    {ellipsis ellipsis' : Option Nat}
    (h : parseGroups fuel s groups ellipsis = some (groups', ellipsis', rest)) :
    ∀ c ∈ s, addressChar c = true ∨ c ∈ rest := by
  induction fuel generalizing s groups ellipsis with
  | zero =>
    cases h
    exact fun c hc => .inr hc
  | succ fuel ih =>
    have hdigits : ∀ c ∈ s.takeWhile (fun c => (hexDigit c).isSome), addressChar c = true :=
      fun c hc => by
        have hall := all_eq_true.mp (all_takeWhile (l := s)) c hc
        simp [addressChar, hall]
    have hsplit := takeWhile_append_dropWhile (p := fun c => (hexDigit c).isSome) (l := s)
    -- it is enough to look at what follows the digits
    suffices hrest : ∀ c ∈ s.dropWhile (fun c => (hexDigit c).isSome),
        addressChar c = true ∨ c ∈ rest by
      intro c hc
      rw [← hsplit, mem_append] at hc
      exact hc.elim (fun hc => .inl (hdigits c hc)) (hrest c)
    rw [parseGroups] at h
    split at h
    · cases h
    split at h
    · split at h
      · cases h
      simp only [bind, Option.bind_eq_some_iff] at h
      obtain ⟨a, ha, -⟩ := h
      intro c hc
      refine .inl (addressChar_of_parseIPv4 ha c ?_)
      rw [← hsplit]
      exact mem_append_right _ hc
    · split at h
      · rename_i htail
        intro c hc
        rw [htail] at hc
        cases hc
      · rename_i tail htail
        split at h
        · cases h
        intro c hc
        rw [htail, mem_cons, mem_cons] at hc
        rcases hc with rfl | rfl | hc
        · exact .inl rfl
        · exact .inl rfl
        · split at h
          · rename_i hnil
            rw [hnil] at hc
            cases hc
          · exact ih h c hc
      · cases h
      · rename_i htail
        intro c hc
        rw [htail, mem_cons] at hc
        rcases hc with rfl | hc
        · exact .inl rfl
        · exact ih h c hc
      · cases h

theorem addressChar_of_parseIPv6 {s : Text} {b : List UInt8} (h : parseIPv6 s = some b) :
    ∀ c ∈ s, addressChar c = true := by
  have hfinish : ∀ {t : Text} {groups : List UInt8} {ellipsis : Option Nat},
      parseIPv6.finish (parseGroups 8 t groups ellipsis) = some b →
          ∀ c ∈ t, addressChar c = true := by
    intro t groups ellipsis ht c hc
    unfold parseIPv6.finish at ht
    split at ht
    · rename_i hgroups
      exact (addressChar_of_parseGroups hgroups c hc).resolve_right not_mem_nil
    · cases ht
  unfold parseIPv6 at h
  split_ifs at h
  split at h
  · intro c hc
    simp only [mem_cons, not_mem_nil, or_false, or_self] at hc
    rw [hc]
    rfl
  · intro c hc
    rw [mem_cons, mem_cons] at hc
    rcases hc with rfl | rfl | hc
    · rfl
    · rfl
    · exact hfinish h c hc
  · exact hfinish h

theorem addressChar_of_parseIP {s : Text} (h : parseIP s ≠ none) :
    ∀ c ∈ s, addressChar c = true := by
  obtain ⟨b, hb⟩ := Option.ne_none_iff_exists'.mp h
  unfold parseIP at hb
  split at hb
  · obtain ⟨a, ha, -⟩ := Option.map_eq_some_iff.mp hb
    exact addressChar_of_parseIPv4 ha
  · exact addressChar_of_parseIPv6 hb
  · cases hb

theorem forall_byte {P : UInt8 → Prop}
    (h : ∀ high < 16, ∀ low < 16, P (UInt8.ofNat (high * 16 + low))) (b : UInt8) : P b := by
  have hb := b.toNat_lt
  have hP := h (b.toNat / 16) (by omega) (b.toNat % 16) (by omega)
  have hsum : b.toNat / 16 * 16 + b.toNat % 16 = b.toNat := by
    omega
  rwa [hsum, UInt8.ofNat_toNat] at hP

theorem parseOctet_octetText (b : UInt8) : parseOctet (octetText b) = some b := by
  apply forall_byte (P := fun b => parseOctet (octetText b) = some b)
  decide +kernel

theorem isDigit_of_mem_octetText {b : UInt8} {c : Char} (hc : c ∈ octetText b) :
    c.isDigit = true :=
  Nat.isDigit_of_mem_toDigits (by decide) (by decide) hc

theorem dot_notMem_octetText (b : UInt8) : '.' ∉ octetText b := by
  intro hdot
  have h := isDigit_of_mem_octetText hdot
  revert h
  decide

theorem parseIPv4_toText (a : IPv4) : parseIPv4 a.toText = some a := by
  have hsplit : a.toText.splitOn '.' =
      [octetText a.b0, octetText a.b1, octetText a.b2, octetText a.b3] := by
    apply splitOn_intercalate
    · simp [dot_notMem_octetText]
    · simp
  simp [parseIPv4, hsplit, parseOctet_octetText]

theorem IPv4.toText_injective {a b : IPv4} (h : a.toText = b.toText) : a = b := by
  have ha := parseIPv4_toText a
  rw [h, parseIPv4_toText b] at ha
  exact (Option.some.inj ha).symm

@[simp] theorem IPv4.toText_inj {a b : IPv4} : a.toText = b.toText ↔ a = b :=
  ⟨IPv4.toText_injective, fun h => h ▸ rfl⟩

end Jerboa.Net.Address
