import Jerboa.Native.Segment

/-!
# What the segments of a packet are

The segments of a packet carry its payload in order, and their headers are those of the
packet but for the fields that tell the segments apart.
-/

namespace Jerboa.Native

open List Lib Lib.Bytes Lib.Checksum

/-! ## Headers -/

structure IPv4Set (pkt seg : List UInt8) (count : Nat) (out : List UInt8) : Prop where
  length : out.length = seg.length
  totalLength : slice out 2 2 = beBytes 2 seg.length
  id : slice out 4 2 = beBytes 2 (ipID pkt + count)
  checksum : checksum (out.take (ihl pkt)) 0 = 65535
  other : ∀ i, (i < 2 ∨ 6 ≤ i) → (i < 10 ∨ 12 ≤ i) → out[i]? = seg[i]?

theorem setIPv4_spec {pkt seg : List UInt8} (count : Nat) (hihl : 20 ≤ ihl pkt)
    (hlength : ihl pkt ≤ seg.length) : IPv4Set pkt seg count (setIPv4 pkt seg count) := by
  unfold setIPv4
  dsimp only
  generalize hs₁ : put seg 2 (beBytes 2 seg.length) = s₁
  generalize hs₂ : put s₁ 4 (beBytes 2 (ipID pkt + count)) = s₂
  generalize hs₃ : put s₂ 10 (beBytes 2 0) = s₃
  generalize hsum : complement (checksum (s₃.take (ihl pkt)) 0) = sum
  have hfit : ∀ {f : List UInt8} {i x : Nat}, f.length = seg.length → i ≤ 10 →
      i + (beBytes 2 x).length ≤ f.length := by
    intro f i x hf hi
    rw [length_beBytes]
    omega
  have h₁ : s₁.length = seg.length := by rw [← hs₁, length_put (hfit rfl (by omega))]
  have h₂ : s₂.length = seg.length := by rw [← hs₂, length_put (hfit h₁ (by omega)), h₁]
  have h₃ : s₃.length = seg.length := by rw [← hs₃, length_put (hfit h₂ (by omega)), h₂]
  have hself : ∀ {f : List UInt8} {i x : Nat}, f.length = seg.length → i ≤ 10 →
      slice (put f i (beBytes 2 x)) i 2 = beBytes 2 x := by
    intro f i x hf hi
    have hput : slice (put f i (beBytes 2 x)) i (beBytes 2 x).length = beBytes 2 x :=
      slice_put_self (hfit hf hi)
    rwa [length_beBytes] at hput
  have hbeside : ∀ {f : List UInt8} {i x j : Nat}, f.length = seg.length → i ≤ 10 →
    (j + 2 ≤ i ∨ i + 2 ≤ j) →
      slice (put f i (beBytes 2 x)) j 2 = slice f j 2 := by
    intro f i x j hf hi hj
    exact slice_put_of_disjoint (hfit hf hi) (by rw [length_beBytes]; exact hj)
  refine ⟨?_, ?_, ?_, ?_, fun i hlow hhigh => ?_⟩
  · rw [length_put (hfit h₃ (by omega)), h₃]
  · rw [hbeside h₃ (by omega) (by omega), ← hs₃, hbeside h₂ (by omega) (by omega), ← hs₂,
      hbeside h₁ (by omega) (by omega), ← hs₁, hself rfl (by omega)]
  · rw [hbeside h₃ (by omega) (by omega), ← hs₃, hbeside h₂ (by omega) (by omega), ← hs₂,
      hself h₁ (by omega)]
  · have hzero : slice (s₃.take (ihl pkt)) 10 2 = [0, 0] := by
      rw [slice_take (by omega), ← hs₃, hself h₂ (by omega)]
      rfl
    rw [take_put (hfit h₃ (by omega)) (by rw [length_beBytes]; omega), ← hsum]
    exact checksum_put_complement (by omega) (by rw [length_take]; omega) hzero (by omega)
  · rw [getElem?_put (hfit h₃ (by omega)), length_beBytes, if_neg (by omega), ← hs₃,
      getElem?_put (hfit h₂ (by omega)), length_beBytes, if_neg (by omega), ← hs₂,
      getElem?_put (hfit h₁ (by omega)), length_beBytes, if_neg (by omega), ← hs₁,
      getElem?_put (hfit rfl (by omega)), length_beBytes, if_neg (by omega)]

structure TCPSet (pkt seg : List UInt8) (off : Nat) (flags : UInt8) (out : List UInt8) : Prop where
  length : out.length = seg.length
  sequenceNumber : slice out (ihl pkt + 4) 4 = beBytes 4 (sequenceNumber pkt + off)
  flags : out[ihl pkt + 13]? = some flags
  checksum : checksum (out.drop (ihl pkt)) (pseudoHeaderChecksum out (seg.length - ihl pkt)) = 65535
  other : ∀ i, (i < ihl pkt + 4 ∨ ihl pkt + 8 ≤ i) → i ≠ ihl pkt + 13 →
    (i < ihl pkt + 16 ∨ ihl pkt + 18 ≤ i) → out[i]? = seg[i]?

theorem pseudoHeaderChecksum_le (pkt : List UInt8) (length : Nat) :
    pseudoHeaderChecksum pkt length ≤ 65535 :=
  checksum_le _ (checksum_le _ (checksum_le _ (checksum_le _ (by omega))))

theorem pseudoHeaderChecksum_congr {f g : List UInt8} (h : ∀ i, i < 20 → f[i]? = g[i]?)
    (length : Nat) :
    pseudoHeaderChecksum f length = pseudoHeaderChecksum g length := by
  rw [pseudoHeaderChecksum, pseudoHeaderChecksum,
    slice_congr (i := 12) fun k _ hk => h k (by omega),
    slice_congr (i := 16) fun k _ hk => h k (by omega)]

theorem setTCP_spec {pkt seg : List UInt8} (off : Nat) (first last : Bool) (hihl : 20 ≤ ihl pkt)
    (heven : ihl pkt % 2 = 0) (hlength : ihl pkt + 20 ≤ seg.length) :
    TCPSet pkt seg off (segmentFlags pkt first last) (setTCP pkt seg off first last) := by
  unfold setTCP
  dsimp only
  generalize segmentFlags pkt first last = flags
  generalize hs₁ : put seg (ihl pkt + 4) (beBytes 4 (sequenceNumber pkt + off)) = s₁
  generalize hs₂ : put s₁ (ihl pkt + 13) [flags] = s₂
  generalize hs₃ : put s₂ (ihl pkt + 16) (beBytes 2 0) = s₃
  have hfit₀ : ihl pkt + 4 + (beBytes 4 (sequenceNumber pkt + off)).length ≤ seg.length := by
    rw [length_beBytes]
    omega
  have h₁ : s₁.length = seg.length := by rw [← hs₁, length_put hfit₀]
  have hfit₁ : ihl pkt + 13 + [flags].length ≤ s₁.length := by
    rw [length_singleton]
    omega
  have h₂ : s₂.length = seg.length := by rw [← hs₂, length_put hfit₁, h₁]
  have hfit : ∀ {f : List UInt8} {x : Nat}, f.length = seg.length →
      ihl pkt + 16 + (beBytes 2 x).length ≤ f.length := by
    intro f x hf
    rw [length_beBytes]
    omega
  have h₃ : s₃.length = seg.length := by rw [← hs₃, length_put (hfit h₂), h₂]
  rw [h₃]
  generalize hsum : complement (checksum (s₃.drop (ihl pkt))
    (pseudoHeaderChecksum s₃ (seg.length - ihl pkt))) = sum
  -- the bytes beside the two writes of the checksum
  have hbeside : ∀ i, (i < ihl pkt + 16 ∨ ihl pkt + 18 ≤ i) →
      (put s₃ (ihl pkt + 16) (beBytes 2 sum))[i]? = s₂[i]? := by
    intro i hi
    rw [getElem?_put (hfit h₃), length_beBytes, if_neg (by omega), ← hs₃, getElem?_put (hfit h₂),
      length_beBytes, if_neg (by omega)]
  refine ⟨?_, ?_, ?_, ?_, fun i hseq hflags hsum' => ?_⟩
  · rw [length_put (hfit h₃), h₃]
  · rw [slice_congr fun k hlow hhigh => hbeside k (by omega), ← hs₂,
      slice_put_of_disjoint hfit₁ (by rw [length_singleton]; omega), ← hs₁]
    have hput := slice_put_self hfit₀
    rwa [length_beBytes] at hput
  · rw [hbeside _ (by omega), ← hs₂, getElem?_put hfit₁, length_singleton, if_pos (by omega),
      Nat.sub_self]
    rfl
  · have hpseudo : pseudoHeaderChecksum (put s₃ (ihl pkt + 16) (beBytes 2 sum))
      (seg.length - ihl pkt) =
        pseudoHeaderChecksum s₃ (seg.length - ihl pkt) := by
      refine pseudoHeaderChecksum_congr (fun i hi => ?_) _
      rw [getElem?_put (hfit h₃), length_beBytes, if_neg (by omega)]
    have hzero : slice (s₃.drop (ihl pkt)) 16 2 = [0, 0] := by
      have hput := slice_put_self (hfit (x := 0) h₂)
      rw [length_beBytes, hs₃] at hput
      rw [slice_drop, hput]
      rfl
    rw [hpseudo, drop_put (hfit h₃) (by omega), Nat.add_sub_cancel_left, ← hsum]
    exact checksum_put_complement (by omega) (by rw [length_drop]; omega) hzero
      (pseudoHeaderChecksum_le _ _)
  · rw [hbeside i hsum', ← hs₂, getElem?_put hfit₁, length_singleton, if_neg (by omega), ← hs₁,
      getElem?_put hfit₀, length_beBytes, if_neg (by omega)]

theorem segmentFlags_and_finPsh (pkt : List UInt8) (first last : Bool) :
    segmentFlags pkt first last &&& finPsh = if last then tcpFlags pkt &&& finPsh else 0 := by
  have h₁ : ~~~cwr &&& finPsh = finPsh := by decide
  have h₂ : ~~~finPsh &&& finPsh = 0 := by decide
  cases first <;> cases last <;> simp [segmentFlags, UInt8.and_assoc, h₁, h₂]

theorem segmentFlags_and_cwr (pkt : List UInt8) (first last : Bool) :
    segmentFlags pkt first last &&& cwr = if first then tcpFlags pkt &&& cwr else 0 := by
  have h₁ : ~~~finPsh &&& cwr = cwr := by decide
  have h₂ : ~~~cwr &&& cwr = 0 := by decide
  cases first <;> cases last <;> simp [segmentFlags, UInt8.and_assoc, h₁, h₂]

theorem segmentFlags_and_others (pkt : List UInt8) (first last : Bool) :
    segmentFlags pkt first last &&& ~~~(finPsh ||| cwr) = tcpFlags pkt &&& ~~~(finPsh ||| cwr) := by
  have h₁ : ~~~finPsh &&& ~~~(finPsh ||| cwr) = ~~~(finPsh ||| cwr) := by decide
  have h₂ : ~~~cwr &&& ~~~(finPsh ||| cwr) = ~~~(finPsh ||| cwr) := by decide
  generalize ~~~(finPsh ||| cwr) = others at h₁ h₂
  cases first <;> cases last <;> simp [segmentFlags, UInt8.and_assoc, h₁, h₂]

/-! ## Packets -/

/-- A packet of TCP over IPv4 with both headers whole. -/
structure SuperFrame (pkt : List UInt8) : Prop where
  protocol : transportProtocol pkt = tcpProtocolNumber
  ihl : ipv4MinimumSize ≤ ihl pkt
  dataOffset : tcpMinimumSize ≤ dataOffset (pkt.drop (Native.ihl pkt))
  headers : headers pkt ≤ pkt.length
  totalLength : totalLength pkt = pkt.length

/-- The fields that differ from segment to segment: both lengths and checksums, the
identification, the sequence number and the flags. -/
def rewritten (pkt : List UInt8) : List Nat :=
  [2, 3, 4, 5, 10, 11, ihl pkt + 4, ihl pkt + 5, ihl pkt + 6, ihl pkt + 7, ihl pkt + 13,
    ihl pkt + 16, ihl pkt + 17]

/-- The payload of a segment of the packet. -/
def payloadOf (pkt seg : List UInt8) : List UInt8 := seg.drop (headers pkt)

/-- A segment of the packet: the `k`th one, after `before` bytes of payload. -/
structure IsSegment (pkt : List UInt8) (k before : Nat) (first last : Bool) (seg : List UInt8) :
    Prop where
  totalLength : totalLength seg = seg.length
  id : ipID seg = (ipID pkt + k) % 2 ^ 16
  sequenceNumber : sequenceNumber seg = (Native.sequenceNumber pkt + before) % 2 ^ 32
  finPsh : tcpFlags seg &&& finPsh = if last then tcpFlags pkt &&& Native.finPsh else 0
  cwr : tcpFlags seg &&& cwr = if first then tcpFlags pkt &&& Native.cwr else 0
  otherFlags : tcpFlags seg &&& ~~~(Native.finPsh ||| Native.cwr) =
    tcpFlags pkt &&& ~~~(Native.finPsh ||| Native.cwr)
  other : ∀ i < headers pkt, i ∉ rewritten pkt → seg[i]? = pkt[i]?
  ipChecksum : checksum (seg.take (ihl seg)) 0 = 65535
  tcpChecksum : checksum (seg.drop (ihl seg))
    (pseudoHeaderChecksum seg (seg.length - ihl seg)) = 65535

variable {pkt : List UInt8}

theorem SuperFrame.length_lt (h : SuperFrame pkt) : pkt.length < 2 ^ 16 := by
  have hlt := beNat_lt (slice pkt 2 2)
  have hle : (slice pkt 2 2).length ≤ 2 := length_take_le _ _
  have htotal : beNat (slice pkt 2 2) = pkt.length := h.totalLength
  have hpow : 256 ^ (slice pkt 2 2).length ≤ 256 ^ 2 := Nat.pow_le_pow_right (by omega) hle
  omega

theorem segment_spec (h : SuperFrame pkt) (mss : Nat) {off : Nat} (count : Nat)
    (hoff : off < (pkt.drop (headers pkt)).length) :
    IsSegment pkt count off (off = 0)
        ((pkt.drop (headers pkt)).length ≤ off + min mss ((pkt.drop (headers pkt)).length - off))
        (segment pkt mss off count) ∧
      payloadOf pkt (segment pkt mss off count) = slice (pkt.drop (headers pkt)) off mss := by
  have hihl : 20 ≤ ihl pkt := h.ihl
  have hdata : 20 ≤ dataOffset (pkt.drop (ihl pkt)) := h.dataOffset
  have hheaders : headers pkt = ihl pkt + dataOffset (pkt.drop (ihl pkt)) := rfl
  have heven : ihl pkt % 2 = 0 := by
    rw [Native.ihl]
    omega
  have hlt := h.length_lt
  have hle := h.headers
  have hpayload : (pkt.drop (headers pkt)).length = pkt.length - headers pkt := length_drop
  unfold segment
  dsimp only
  generalize hn : min mss ((pkt.drop (headers pkt)).length - off) = n
  generalize hbase : pkt.take (headers pkt) ++ slice (pkt.drop (headers pkt)) off n = base
  have hlength : base.length = headers pkt + n := by
    rw [← hbase, length_append, length_take_of_le hle, length_slice (by omega)]
  have hip : IPv4Set pkt base count (setIPv4 pkt base count) := setIPv4_spec count hihl (by omega)
  generalize setIPv4 pkt base count = ip at hip
  have htcp := setTCP_spec off (off = 0) ((pkt.drop (headers pkt)).length ≤ off + n) hihl heven
    (by rw [hip.length]; omega : ihl pkt + 20 ≤ ip.length)
  generalize setTCP pkt ip off (off = 0) ((pkt.drop (headers pkt)).length ≤ off + n) = seg at htcp
  have hseg : seg.length = headers pkt + n := by rw [htcp.length, hip.length, hlength]
  have hlow : ∀ i, i < ihl pkt → seg[i]? = ip[i]? :=
    fun i hi => htcp.other i (by omega) (by omega) (by omega)
  have hother : ∀ i < headers pkt, i ∉ rewritten pkt → seg[i]? = pkt[i]? := by
    intro i hi hnot
    simp only [rewritten, mem_cons, not_mem_nil, or_false, not_or] at hnot
    rw [htcp.other i (by omega) (by omega) (by omega), hip.other i (by omega) (by omega), ← hbase,
      getElem?_append_left (by rw [length_take_of_le hle]; exact hi), getElem?_take_of_lt hi]
  have hsame : ihl seg = ihl pkt := by
    rw [ihl, getD_eq_getElem?_getD, hother 0 (by omega), ← getD_eq_getElem?_getD, ihl]
    simp only [rewritten, mem_cons, not_mem_nil, or_false, not_or]
    omega
  have hflags : tcpFlags seg =
      segmentFlags pkt (off = 0) ((pkt.drop (headers pkt)).length ≤ off + n) := by
    rw [tcpFlags, hsame, getD_eq_getElem?_getD, htcp.flags, Option.getD_some]
  refine ⟨⟨?_, ?_, ?_, ?_, ?_, ?_, hother, ?_, ?_⟩, ?_⟩
  · rw [totalLength, slice_congr fun k _ hk => hlow k (by omega), hip.totalLength,
      beNat_beBytes (by omega)]
    omega
  · rw [ipID, slice_congr fun k _ hk => hlow k (by omega), hip.id, beNat_beBytes_mod]
    rfl
  · rw [sequenceNumber, hsame, htcp.sequenceNumber, beNat_beBytes_mod]
    rfl
  · rw [hflags, segmentFlags_and_finPsh]
  · rw [hflags, segmentFlags_and_cwr]
  · rw [hflags, segmentFlags_and_others]
  · rw [hsame, take_congr hlow, hip.checksum]
  · rw [hsame, htcp.length]
    exact htcp.checksum
  · have hdrop : seg.drop (headers pkt) = base.drop (headers pkt) := by
      refine drop_congr fun k hk => ?_
      rw [htcp.other k (by omega) (by omega) (by omega), hip.other k (by omega) (by omega)]
    rw [payloadOf, hdrop, ← hbase, drop_left' (length_take_of_le hle), slice, slice, ← hn]
    rw [← length_drop, take_eq_take_iff]
    omega

/-! ## The loop -/

theorem segmentLoop_eq_nil {mss fuel off : Nat} (count : Nat)
    (h : (pkt.drop (headers pkt)).length ≤ off) : segmentLoop pkt mss fuel off count = [] := by
  cases fuel with
  | zero => rfl
  | succ => rw [segmentLoop, if_neg (by omega)]

theorem segmentLoop_spec (h : SuperFrame pkt) {mss : Nat} (hmss : 0 < mss) (fuel off count : Nat)
    (hfuel : (pkt.drop (headers pkt)).length ≤ off + fuel) :
    (segmentLoop pkt mss fuel off count).flatMap (payloadOf pkt) =
      (pkt.drop (headers pkt)).drop off ∧
      ∀ j seg, (segmentLoop pkt mss fuel off count)[j]? = some seg →
        (payloadOf pkt seg).length ≤ mss ∧
        IsSegment pkt (count + j)
          (off + (((segmentLoop pkt mss fuel off count).take j).flatMap (payloadOf pkt)).length)
          (off = 0 ∧ j = 0) (j + 1 = (segmentLoop pkt mss fuel off count).length) seg := by
  induction fuel generalizing off count with
  | zero =>
    have hnil : (pkt.drop (headers pkt)).drop off = [] := drop_of_length_le hfuel
    rw [segmentLoop, hnil]
    exact ⟨rfl, nofun⟩
  | succ fuel ih =>
    by_cases hoff : off < (pkt.drop (headers pkt)).length
    · obtain ⟨hsegment, hpayload⟩ := segment_spec h mss count hoff
      obtain ⟨hflat, hall⟩ := ih (off + mss) (count + 1) (by omega)
      rw [segmentLoop, if_pos hoff]
      generalize segment pkt mss off count = head at hsegment hpayload
      generalize hrest : segmentLoop pkt mss fuel (off + mss) (count + 1) = rest at hflat hall
      have hnil : rest = [] ↔ (pkt.drop (headers pkt)).length ≤ off + mss := by
        constructor
        · intro hnil
          rw [hnil, flatMap_nil, eq_comm, drop_eq_nil_iff] at hflat
          exact hflat
        · intro hend
          rw [← hrest, segmentLoop_eq_nil (count + 1) hend]
      refine ⟨?_, fun j seg hseg => ?_⟩
      · rw [flatMap_cons, hpayload, hflat, slice, ← drop_drop, take_append_drop]
      · cases j with
        | zero =>
          rw [getElem?_cons_zero] at hseg
          cases hseg
          refine ⟨?_, ?_⟩
          · rw [hpayload]
            exact length_take_le _ _
          · have hfirst : decide (off = 0 ∧ 0 = 0) = decide (off = 0) := by simp
            have hlast : decide (0 + 1 = (head :: rest).length) =
                decide ((pkt.drop (headers pkt)).length ≤
                  off + min mss ((pkt.drop (headers pkt)).length - off)) := by
              rw [decide_eq_decide, length_cons, Nat.add_left_inj, eq_comm,
                length_eq_zero_iff, hnil]
              omega
            rw [hfirst, hlast]
            exact hsegment
        | succ j =>
          rw [getElem?_cons_succ] at hseg
          obtain ⟨hsize, hnext⟩ := hall j seg hseg
          refine ⟨hsize, ?_⟩
          -- a segment with another one after it is full
          have hfull : (payloadOf pkt head).length = mss := by
            have hne : rest ≠ [] := ne_nil_of_mem (mem_of_getElem? hseg)
            rw [ne_eq, hnil] at hne
            rw [hpayload]
            exact length_slice (by omega)
          have hfirst : decide (off = 0 ∧ j + 1 = 0) = decide (off + mss = 0 ∧ j = 0) := by
            rw [decide_eq_decide]
            omega
          have hlast : decide (j + 1 + 1 = (head :: rest).length) =
              decide (j + 1 = rest.length) := by
            rw [decide_eq_decide, length_cons, Nat.add_left_inj]
          rw [hfirst, hlast, take_succ_cons, flatMap_cons, length_append, hfull,
            ← Nat.add_assoc off, Nat.add_left_comm count j 1, Nat.add_comm j]
          exact hnext
    · have hnil : (pkt.drop (headers pkt)).drop off = [] := drop_of_length_le (by omega)
      rw [segmentLoop_eq_nil count (by omega), hnil]
      exact ⟨rfl, nofun⟩

/-- The segments of a packet carry its payload in order, each no more than the segment
size, under headers that count on the sequence number and the identification, keep FIN
and PSH for the last and CWR for the first, have checksums that are right, and are those
of the packet otherwise. -/
theorem segmentTCPv4_spec (pkt : List UInt8) (h : SuperFrame pkt) (mss : Int) (hmss : 0 < mss) :
    (segmentTCPv4 pkt mss).flatMap (payloadOf pkt) = payloadOf pkt pkt ∧
      ∀ k seg, (segmentTCPv4 pkt mss)[k]? = some seg →
        (payloadOf pkt seg).length ≤ mss ∧
        IsSegment pkt k (((segmentTCPv4 pkt mss).take k).flatMap (payloadOf pkt)).length (k = 0)
          (k + 1 = (segmentTCPv4 pkt mss).length) seg := by
  have hihl : 20 ≤ ihl pkt := h.ihl
  have hdata : 20 ≤ dataOffset (pkt.drop (ihl pkt)) := h.dataOffset
  have hheaders : headers pkt = ihl pkt + dataOffset (pkt.drop (ihl pkt)) := rfl
  have hle := h.headers
  have hloop : segmentTCPv4 pkt mss = segmentLoop pkt mss.toNat
      (pkt.drop (headers pkt)).length 0 0 := by
    rw [segmentTCPv4, if_neg (by rw [ipv4MinimumSize]; omega), if_neg, if_neg]
    · rw [tcpMinimumSize]
      omega
    · rw [not_or, not_or, not_not, ipv4MinimumSize, tcpMinimumSize]
      exact ⟨h.protocol, by omega, by omega⟩
  obtain ⟨hflat, hall⟩ := segmentLoop_spec h (by omega : 0 < mss.toNat)
    (pkt.drop (headers pkt)).length 0 0 (by omega)
  rw [← hloop] at hflat hall
  refine ⟨by rw [hflat, drop_zero, payloadOf], fun k seg hseg => ?_⟩
  obtain ⟨hsize, hsegment⟩ := hall k seg hseg
  have hfirst : decide (0 = 0 ∧ k = 0) = decide (k = 0) := by simp
  rw [hfirst, Nat.zero_add, Nat.zero_add] at hsegment
  exact ⟨by omega, hsegment⟩

/-- A packet with five bytes of payload under headers without options. -/
def frame : List UInt8 :=
  [0x45, 0, 0, 45, 0xff, 0xff, 0x40, 0, 64, 6, 0, 0, 10, 0, 0, 1, 10, 0, 0, 2] ++
    [0, 80, 4, 0, 0xff, 0xff, 0xff, 0xfe, 0, 0, 0, 1, 0x50, 0x99, 1, 0, 0, 0, 0, 0] ++
      [1, 2, 3, 4, 5]

theorem frame_superFrame : SuperFrame frame := ⟨rfl, by decide, by decide, by decide, by decide⟩

/-- In segments of two bytes: the sequence numbers and the identifications wrap. -/
theorem segmentTCPv4_spec_wraps :
    (segmentTCPv4 frame 2).flatMap (payloadOf frame) = [1, 2, 3, 4, 5] ∧
      (segmentTCPv4 frame 2).map (fun seg => (sequenceNumber seg, ipID seg, tcpFlags seg)) =
        [(2 ^ 32 - 2, 65535, 0x90), (0, 0, 0x10), (2, 1, 0x19)] ∧
      ∀ (k : Nat) seg, (segmentTCPv4 frame 2)[k]? = some seg → totalLength seg = seg.length := by
  obtain ⟨hflat, hall⟩ := segmentTCPv4_spec frame frame_superFrame 2 (by decide)
  refine ⟨?_, by decide +kernel, fun k seg hseg => (hall k seg hseg).2.totalLength⟩
  rw [hflat]
  decide

end Jerboa.Native
