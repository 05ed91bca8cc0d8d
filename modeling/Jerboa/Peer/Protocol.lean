import Jerboa.Lib.Bytes

/-!
# The peer control protocol

`peerMessage.encode` and `decodePeerMessage` of package `network`.  A message is 32
bytes, and what the last 16 of them mean depends on its type.
-/

namespace Jerboa.Peer

open List Lib.Bytes

def peerMessageSize : Nat := 32

def peerHello : UInt8 := 1

def peerStats : UInt8 := 8

def peerIdle : UInt8 := 9

/-- The text "JPC1". -/
def peerMagic : List UInt8 := [0x4a, 0x50, 0x43, 0x31]

structure PeerMessage where
  type : UInt8
  flags : UInt8
  epoch : BitVec 64
  value : BitVec 64
  mac : BitVec 48
  ip : BitVec 32
deriving DecidableEq

/-- The last `n` bytes of a number, the least significant one first. -/
def leBytes (n x : Nat) : List UInt8 := (beBytes n x).reverse

def leNat (bs : List UInt8) : Nat := beNat bs.reverse

/-- The bytes from 16 on. -/
def PeerMessage.body (m : PeerMessage) : List UInt8 :=
  if m.type = peerStats then leBytes 8 m.value.toNat ++ List.replicate 8 0
  else leBytes 4 m.value.toNat ++ (beBytes 6 m.mac.toNat ++ (beBytes 4 m.ip.toNat ++ [0, 0]))

def PeerMessage.encode (m : PeerMessage) : List UInt8 :=
  peerMagic ++ [m.type, m.flags, 0, 0] ++ (leBytes 8 m.epoch.toNat ++ m.body)

def decodePeerMessage (b : List UInt8) : Option PeerMessage :=
  let type := b.getD 4 0
  if b.length ≠ peerMessageSize ∨ slice b 0 4 ≠ peerMagic ∨ slice b 6 2 ≠ [0, 0] ∨
      type < peerHello ∨ peerIdle < type then none
  else
    let epoch := .ofNat 64 (leNat (slice b 8 8))
    if type = peerStats then
      some ⟨type, b.getD 5 0, epoch, .ofNat 64 (leNat (slice b 16 8)), 0, 0⟩
    else if slice b 30 2 ≠ [0, 0] then none
    else
      some ⟨type, b.getD 5 0, epoch, .ofNat 64 (leNat (slice b 16 4)),
        .ofNat 48 (beNat (slice b 20 6)), .ofNat 32 (beNat (slice b 26 4))⟩

/-- A type that is known, a value within its field, and no addresses in statistics. -/
structure PeerMessage.WellFormed (m : PeerMessage) : Prop where
  known : peerHello ≤ m.type ∧ m.type ≤ peerIdle
  value : m.type ≠ peerStats → m.value.toNat < 2 ^ 32
  stats : m.type = peerStats → m.mac = 0 ∧ m.ip = 0

@[simp] theorem length_leBytes (n x : Nat) : (leBytes n x).length = n := by
  rw [leBytes, length_reverse, length_beBytes]

theorem leNat_leBytes {n x : Nat} (h : x < 256 ^ n) : leNat (leBytes n x) = x := by
  rw [leNat, leBytes, reverse_reverse, beNat_beBytes h]

theorem leBytes_leNat {bs : List UInt8} {n : Nat} (h : bs.length = n) :
    leBytes n (leNat bs) = bs := by
  rw [leBytes, leNat, ← h, ← length_reverse, beBytes_beNat, reverse_reverse]

theorem leNat_lt (bs : List UInt8) : leNat bs < 256 ^ bs.length := by
  rw [leNat, ← length_reverse]
  exact beNat_lt _

variable {a b c : List UInt8} {i n : Nat}

theorem slice_append_right (h : a.length ≤ i) : slice (a ++ b) i n = slice b (i - a.length) n := by
  simp only [slice, drop_append, drop_eq_nil_of_le h, nil_append]

theorem slice_append_left (h : a.length = n) : slice (a ++ b) 0 n = a := by
  rw [slice, drop_zero, ← h, take_left]

theorem slice_one (h : i < b.length) : slice b i 1 = [b.getD i 0] := by
  rw [slice, drop_eq_getElem_cons h, take_succ_cons, take_zero, List.getD,
    getElem?_eq_getElem h]
  rfl

theorem slice_append_slice (b : List UInt8) (i n k : Nat) :
    slice b i n ++ slice b (i + n) k = slice b i (n + k) := by
  rw [slice, slice, slice, ← drop_drop, take_add]

variable {m : PeerMessage}

theorem length_body (m : PeerMessage) : m.body.length = 16 := by
  unfold PeerMessage.body
  split_ifs <;> simp

theorem slice_encode (m : PeerMessage) (i n : Nat) :
    slice m.encode (16 + i) n = slice m.body i n := by
  have hhead : (peerMagic ++ [m.type, m.flags, 0, 0]).length = 8 := rfl
  rw [PeerMessage.encode, slice_append_right (by omega),
    slice_append_right (by rw [length_leBytes]; omega), hhead, length_leBytes]
  congr 1
  omega

theorem slice_epoch (m : PeerMessage) : slice m.encode 8 8 = leBytes 8 m.epoch.toNat := by
  rw [PeerMessage.encode, slice_append_right (le_refl 8)]
  exact slice_append_left (length_leBytes 8 _)

theorem decode_encode (h : m.WellFormed) : decodePeerMessage m.encode = some m := by
  have hepoch : leNat (leBytes 8 m.epoch.toNat) = m.epoch.toNat := leNat_leBytes m.epoch.isLt
  have hsize : m.encode.length = 32 := by
    have hrest : (leBytes 8 m.epoch.toNat ++ m.body).length = 24 := by
      rw [length_append, length_leBytes, length_body]
    rw [PeerMessage.encode, length_append, hrest]
    rfl
  have htype : m.encode.getD 4 0 = m.type := rfl
  have hflags : m.encode.getD 5 0 = m.flags := rfl
  have hhead : slice m.encode 0 4 = peerMagic := rfl
  have hzero : slice m.encode 6 2 = [0, 0] := rfl
  have hknown : ¬ (m.type < peerHello ∨ peerIdle < m.type) := by
    rw [not_or, UInt8.not_lt, UInt8.not_lt]
    exact h.known
  simp only [decodePeerMessage, hsize, htype, hflags, hhead, hzero, slice_epoch, hepoch,
    peerMessageSize, ne_eq, not_true, false_or, if_neg hknown]
  by_cases hstats : m.type = peerStats
  · have hvalue : slice m.encode 16 8 = leBytes 8 m.value.toNat := by
      rw [slice_encode m 0, PeerMessage.body, if_pos hstats, slice_append_left (length_leBytes 8 _)]
    obtain ⟨hmac, hip⟩ := h.stats hstats
    rw [if_pos hstats, hvalue, leNat_leBytes m.value.isLt, ← hmac, ← hip]
    simp
  · have hbody := PeerMessage.body.eq_1 m
    rw [if_neg hstats] at hbody
    have hvalue : slice m.encode 16 4 = leBytes 4 m.value.toNat := by
      rw [slice_encode m 0, hbody, slice_append_left (length_leBytes 4 _)]
    have hmac : slice m.encode 20 6 = beBytes 6 m.mac.toNat := by
      rw [slice_encode m 4, hbody, slice_append_right (by simp), length_leBytes,
        slice_append_left (length_beBytes 6 _)]
    have hip : slice m.encode 26 4 = beBytes 4 m.ip.toNat := by
      rw [slice_encode m 10, hbody, slice_append_right (by simp), slice_append_right (by simp),
        length_leBytes, length_beBytes, slice_append_left (length_beBytes 4 _)]
    have hlast : slice m.encode 30 2 = [0, 0] := by
      rw [slice_encode m 14, hbody, slice_append_right (by simp), slice_append_right (by simp),
        slice_append_right (by simp), length_leBytes, length_beBytes, length_beBytes]
      rfl
    rw [if_neg hstats, hlast, hvalue, hmac, hip, leNat_leBytes (h.value hstats),
      beNat_beBytes m.mac.isLt, beNat_beBytes m.ip.isLt]
    simp

/-! ## Encoding what was decoded -/

theorem decode_eq_some (h : decodePeerMessage b = some m) :
    b.length = 32 ∧ slice b 0 4 = peerMagic ∧ slice b 6 2 = [0, 0] ∧ m.type = b.getD 4 0 ∧
      m.flags = b.getD 5 0 ∧ (peerHello ≤ m.type ∧ m.type ≤ peerIdle) ∧
      m.epoch.toNat = leNat (slice b 8 8) ∧
      (m.type = peerStats → m.value.toNat = leNat (slice b 16 8) ∧ m.mac = 0 ∧ m.ip = 0) ∧
      (m.type ≠ peerStats → m.value.toNat = leNat (slice b 16 4) ∧
        m.mac.toNat = beNat (slice b 20 6) ∧
        m.ip.toNat = beNat (slice b 26 4) ∧ slice b 30 2 = [0, 0]) := by
  unfold decodePeerMessage at h
  simp only at h
  split at h
  · cases h
  next hhead =>
  simp only [not_or, not_not, UInt8.not_lt] at hhead
  obtain ⟨hsize, hmagic, hzero, hknown⟩ := hhead
  have hle : ∀ i n : Nat, i + n ≤ 32 → leNat (slice b i n) < 256 ^ n := fun i n hin => by
    have hlt := leNat_lt (slice b i n)
    rwa [length_slice (by rw [hsize]; exact hin)] at hlt
  have hbe : ∀ i n : Nat, i + n ≤ 32 → beNat (slice b i n) < 256 ^ n := fun i n hin => by
    have hlt := beNat_lt (slice b i n)
    rwa [length_slice (by rw [hsize]; exact hin)] at hlt
  refine ⟨hsize, hmagic, hzero, ?_⟩
  split at h
  · next hstats =>
    cases h
    refine ⟨rfl, rfl, hknown, Nat.mod_eq_of_lt (hle 8 8 (by omega)), fun _ => ?_,
      fun hne => absurd hstats hne⟩
    exact ⟨Nat.mod_eq_of_lt (hle 16 8 (by omega)), rfl, rfl⟩
  · next hstats =>
    split at h
    · cases h
    next hlast =>
    cases h
    refine ⟨rfl, rfl, hknown, Nat.mod_eq_of_lt (hle 8 8 (by omega)), fun heq => absurd heq hstats,
      fun _ => ?_⟩
    have hvalue : leNat (slice b 16 4) < 256 ^ 8 := lt_trans (hle 16 4 (by omega)) (by decide)
    exact ⟨Nat.mod_eq_of_lt hvalue, Nat.mod_eq_of_lt (hbe 20 6 (by omega)),
      Nat.mod_eq_of_lt (hbe 26 4 (by omega)), not_not.mp hlast⟩

theorem wellFormed_of_decode (h : decodePeerMessage b = some m) : m.WellFormed := by
  obtain ⟨hsize, -, -, -, -, hknown, -, hstats, hother⟩ := decode_eq_some h
  refine ⟨hknown, fun hne => ?_, fun heq => (hstats heq).2⟩
  have hlt := leNat_lt (slice b 16 4)
  rw [length_slice (by omega)] at hlt
  rw [(hother hne).1]
  exact hlt

/-- The last eight bytes of statistics are zero. -/
def Padded (b : List UInt8) : Prop := b.getD 4 0 = peerStats → slice b 24 8 = List.replicate 8 0

section

variable (h : decodePeerMessage b = some m)
include h

theorem encode_eq_iff : m.encode = b ↔ Padded b := by
  obtain ⟨hsize, hmagic, hzero, htype, hflags, -, hepoch, hstats, hother⟩ := decode_eq_some h
  have hhead : slice b 0 8 = peerMagic ++ [m.type, m.flags, 0, 0] := by
    rw [← slice_append_slice b 0 4 4, ← slice_append_slice b 4 1 3, ← slice_append_slice b 5 1 2,
      slice_one (by omega), slice_one (by omega), hmagic, hzero, htype, hflags]
    rfl
  have hbytes : leBytes 8 m.epoch.toNat = slice b 8 8 := by
    rw [hepoch, leBytes_leNat (length_slice (by omega))]
  have hsplit : b = slice b 0 8 ++ (slice b 8 8 ++ slice b 16 16) := by
    rw [slice_append_slice, slice_append_slice, slice, drop_zero, take_of_length_le (by omega)]
  have hbody : m.encode = b ↔ m.body = slice b 16 16 := by
    rw [PeerMessage.encode, ← hhead, hbytes]
    nth_rewrite 3 [hsplit]
    rw [append_cancel_left_eq, append_cancel_left_eq]
  rw [hbody, Padded, ← htype, PeerMessage.body]
  by_cases heq : m.type = peerStats
  · rw [if_pos heq, (hstats heq).1, leBytes_leNat (length_slice (by omega)),
      ← slice_append_slice b 16 8 8, append_cancel_left_eq]
    exact ⟨fun hpad _ => hpad.symm, fun hpad => (hpad heq).symm⟩
  · obtain ⟨hvalue, hmac, hip, hlast⟩ := hother heq
    have hbe : ∀ i n, i + n ≤ 32 → beBytes n (beNat (slice b i n)) = slice b i n :=
        fun i n hin => by
      have hself := beBytes_beNat (slice b i n)
      rwa [length_slice (by omega)] at hself
    rw [if_neg heq, hvalue, hmac, hip, leBytes_leNat (length_slice (by omega)), hbe 20 6 (by omega),
      hbe 26 4 (by omega), ← hlast, slice_append_slice, slice_append_slice, slice_append_slice]
    exact ⟨fun _ hcontra => absurd hcontra heq, fun _ => rfl⟩

/-- The last byte of statistics is not read. -/
theorem decode_set (hstats : m.type = peerStats) (x : UInt8) :
    decodePeerMessage (b.set 31 x) = some m := by
  have hslice : ∀ i n, i + n ≤ 31 → slice (b.set 31 x) i n = slice b i n := fun i n hin =>
    slice_congr fun k _ hk => getElem?_set_ne (by omega)
  have hget : ∀ i, i < 31 → (b.set 31 x).getD i 0 = b.getD i 0 := fun i hi => by
    rw [List.getD, List.getD, getElem?_set_ne (by omega)]
  rw [← h, decodePeerMessage, decodePeerMessage]
  rw [(decode_eq_some h).2.2.2.1] at hstats
  simp only [length_set, hget 4 (by omega), hget 5 (by omega), hslice 0 4 (by omega),
    hslice 6 2 (by omega), hslice 8 8 (by omega), hslice 16 8 (by omega), hstats, if_true]

theorem unique_iff :
    (∀ b', decodePeerMessage b' = some m → b' = b) ↔ b.getD 4 0 ≠ peerStats := by
  obtain ⟨hsize, -, -, htype, -⟩ := decode_eq_some h
  constructor
  · intro hall hstats
    have hset : ∀ x, b.set 31 x = b := fun x => hall _ (decode_set h (htype.trans hstats) x)
    have hlast : ∀ x, b[31]? = some x := fun x => by
      rw [← hset x, getElem?_set_self (by omega)]
    cases (hlast 0).symm.trans (hlast 1)
  · intro hne b' h'
    have htype' : b'.getD 4 0 ≠ peerStats := (decode_eq_some h').2.2.2.1 ▸ htype ▸ hne
    rw [← (encode_eq_iff h').mpr fun hstats => absurd hstats htype',
      ← (encode_eq_iff h).mpr fun hstats => absurd hstats hne]

end

/-- A message that is well formed is read back, and so is one that was read.  The bytes it
was read from are the ones it is written as, if and only if no byte of them was left
unread. -/
theorem peer_message_codec (m : PeerMessage) (b : List UInt8) :
    (m.WellFormed → decodePeerMessage m.encode = some m) ∧
      (decodePeerMessage b = some m →
        decodePeerMessage m.encode = some m ∧ (m.encode = b ↔ Padded b) ∧
          ((∀ b', decodePeerMessage b' = some m → b' = b) ↔ b.getD 4 0 ≠ peerStats)) :=
  ⟨decode_encode, fun h =>
    ⟨decode_encode (wellFormed_of_decode h), encode_eq_iff h, unique_iff h⟩⟩

def sampleStats (last : UInt8) : List UInt8 :=
  peerMagic ++ [8, 0, 0, 0] ++ List.replicate 23 0 ++ [last]

theorem stats_read_alike :
    decodePeerMessage (sampleStats 0) = decodePeerMessage (sampleStats 1) ∧
      decodePeerMessage (sampleStats 1) = some ⟨8, 0, 0, 0, 0, 0⟩ ∧
      (⟨8, 0, 0, 0, 0, 0⟩ : PeerMessage).encode ≠ sampleStats 1 := by
  decide

theorem peer_message_codec_hello :
    (⟨1, 0, 0, 1, 7, 0⟩ : PeerMessage).WellFormed ∧
      decodePeerMessage (⟨1, 0, 0, 1, 7, 0⟩ : PeerMessage).encode = some ⟨1, 0, 0, 1, 7, 0⟩ := by
  have hwf : (⟨1, 0, 0, 1, 7, 0⟩ : PeerMessage).WellFormed :=
    ⟨by decide, fun _ => by decide, fun h => absurd h (by decide)⟩
  exact ⟨hwf, (peer_message_codec _ []).1 hwf⟩

end Jerboa.Peer
