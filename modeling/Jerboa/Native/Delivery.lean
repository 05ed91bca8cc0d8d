import Jerboa.Native.Port

/-!
# What a port delivers

However the stream of a guest is cut into reads, a port delivers its announcement and
then the frames of the stream that pass, whole and in order.  What passes comes from
the port's VM.
-/

namespace Jerboa.Native

open List Lib Lib.Bytes

/-! ## Streams -/

def Sized (f : Bytes) : Prop := 14 ≤ f.length ∧ f.length ≤ maxEthernetFrame

def NoFrame (tail : Bytes) : Prop := ∀ f rest, Sized f → tail ≠ wire f ++ rest

/-- The stream is these frames, and then bytes that start no frame. -/
structure Stream (input : Bytes) (fs : List Bytes) (tail : Bytes) : Prop where
  eq : input = fs.flatMap wire ++ tail
  sized : ∀ f ∈ fs, Sized f
  tail : NoFrame tail

theorem length_wire (f : Bytes) : (wire f).length = 4 + f.length := by
  rw [wire, length_append, length_beBytes]

theorem readFull_eq_ok {n : Nat} {input a b : Bytes} :
    readFull n input = .ok (a, b) ↔ input = a ++ b ∧ a.length = n := by
  unfold readFull
  constructor
  · intro h
    split at h
    · next hn =>
      cases h
      exact ⟨(take_append_drop n input).symm, length_take_of_le hn⟩
    · cases h
  · rintro ⟨rfl, rfl⟩
    rw [if_pos (by rw [length_append]; omega), take_left, drop_left]

theorem nextFrame_eq_ok {input f rest : Bytes} :
    nextFrame input = .ok (f, rest) ↔ input = wire f ++ rest ∧ Sized f := by
  constructor
  · intro h
    obtain ⟨⟨first, input₁⟩, hfirst, h₁⟩ := bind_eq_ok.mp h
    obtain ⟨⟨rest₁, input₂⟩, hrest, h₂⟩ := bind_eq_ok.mp h₁
    obtain ⟨⟨⟩, hsize, h₃⟩ := bind_eq_ok.mp h₂
    obtain ⟨hinput, hfirst⟩ := readFull_eq_ok.mp hfirst
    obtain ⟨hinput₁, hrest⟩ := readFull_eq_ok.mp hrest
    obtain ⟨hinput₂, hlength⟩ := readFull_eq_ok.mp h₃
    rw [throwIf_eq_ok] at hsize
    have hheader : beBytes 4 f.length = first ++ rest₁ := by
      have hfour : (first ++ rest₁).length = 4 := by rw [length_append]; omega
      rw [hlength, ← hfour, beBytes_beNat]
    refine ⟨?_, ?_⟩
    · rw [hinput, hinput₁, hinput₂, wire, hheader]
      simp only [append_assoc]
    · rw [Sized]
      omega
  · rintro ⟨rfl, hlow, hhigh⟩
    have hfour : beNat (beBytes 4 f.length) = f.length := by
      refine beNat_beBytes (lt_of_le_of_lt hhigh ?_)
      decide
    obtain ⟨a, b, c, d, hbytes⟩ : ∃ a b c d, beBytes 4 f.length = [a, b, c, d] := ⟨_, _, _, _, rfl⟩
    refine bind_eq_ok.mpr ⟨([a], [b, c, d] ++ (f ++ rest)), readFull_eq_ok.mpr ⟨?_, rfl⟩, ?_⟩
    · rw [wire, hbytes]
      rfl
    · refine bind_eq_ok.mpr ⟨([b, c, d], f ++ rest), readFull_eq_ok.mpr ⟨rfl, rfl⟩, ?_⟩
      have hsize : beNat ([a] ++ [b, c, d]) = f.length := by rw [← hfour, hbytes]; rfl
      dsimp only
      rw [hsize]
      exact bind_eq_ok.mpr ⟨(), (throwIf_eq_ok _ _ _).mpr (by omega), readFull_eq_ok.mpr ⟨rfl, rfl⟩⟩

variable {tail : Bytes}

theorem noFrame_of_error {e : ReadErr} (h : nextFrame tail = .error e) : NoFrame tail := by
  rintro f rest hsized rfl
  rw [nextFrame_eq_ok.mpr ⟨rfl, hsized⟩] at h
  cases h

theorem NoFrame.nextFrame (h : NoFrame tail) : ∃ e, nextFrame tail = .error e := by
  cases hnext : Native.nextFrame tail with
  | error e => exact ⟨e, rfl⟩
  | ok x =>
    obtain ⟨heq, hsized⟩ := nextFrame_eq_ok.mp hnext
    exact absurd heq (h x.1 x.2 hsized)

theorem exists_stream (input : Bytes) : ∃ fs tail, Stream input fs tail := by
  induction hn : input.length using Nat.strong_induction_on generalizing input with
  | h n ih =>
    cases hnext : nextFrame input with
    | error => exact ⟨[], input, rfl, by simp, noFrame_of_error hnext⟩
    | ok x =>
      obtain ⟨rfl, hsized⟩ := nextFrame_eq_ok.mp hnext
      rw [length_append, length_wire] at hn
      obtain ⟨fs, tail, hrest⟩ := ih x.2.length (by omega) x.2 rfl
      refine ⟨x.1 :: fs, tail, ?_, forall_mem_cons.mpr ⟨hsized, hrest.sized⟩, hrest.tail⟩
      rw [flatMap_cons, append_assoc, ← hrest.eq]

/-- The frame is delivered. -/
def passes (p : Port) (f : Bytes) : Bool :=
  !(capabilitiesFrame p f).2.2 && validSource p f && validLarge f

theorem flowSlot_kept (r : Reader) (dst : Bytes) :
    (flowSlot r dst).2.pending = r.pending ∧ (flowSlot r dst).2.input = r.input := by
  unfold flowSlot
  split
  · exact ⟨rfl, rfl⟩
  · exact ⟨rfl, rfl⟩

theorem count_kept (r : Reader) (f : Bytes) :
    (r.count f).pending = r.pending ∧ (r.count f).input = r.input := by
  unfold Reader.count
  split
  · exact ⟨rfl, rfl⟩
  · dsimp only
    split
    · exact flowSlot_kept r _
    · exact flowSlot_kept r _

theorem take_spec (p : Port) (r : Reader) (f : Bytes) :
    (take p r f).input = r.input ∧
      (take p r f).pending = if passes p f then wire f else r.pending := by
  unfold take passes
  obtain ⟨flags, ours, caps⟩ := capabilitiesFrame p f
  cases caps with
  | true =>
    dsimp only
    split
    · exact ⟨rfl, rfl⟩
    · exact ⟨rfl, rfl⟩
  | false =>
    by_cases hvalid : (!validSource p f || !validLarge f) = true
    · rw [if_pos hvalid, if_neg]
      · exact ⟨rfl, rfl⟩
      · intro h
        simp_all
    · rw [if_neg hvalid, if_pos]
      · exact ⟨(count_kept r f).2, rfl⟩
      · simp_all

/-! ## Reads -/

def due (p : Port) (r : Reader) (fs : List Bytes) : Bytes :=
  r.pending ++ (fs.filter (passes p)).flatMap wire

variable {fs : List Bytes} {r : Reader}

theorem fill_spec (p : Port) {fuel : Nat} (hfuel : r.input.length < fuel)
    (h : Stream r.input fs tail) :
    ∃ fs', Stream (fill p fuel r).1.input fs' tail ∧ due p (fill p fuel r).1 fs' = due p r fs ∧
      ((fill p fuel r).2 = none → (fill p fuel r).1.pending ≠ []) ∧
      ((fill p fuel r).2 ≠ none → due p r fs = []) := by
  induction fuel generalizing r fs with
  | zero => omega
  | succ fuel ih =>
    rw [fill]
    split
    · next hpending => exact ⟨fs, h, rfl, fun _ => hpending, fun hne => absurd rfl hne⟩
    · next hpending =>
      rw [ne_eq, not_not] at hpending
      cases fs with
      | nil =>
        have hinput : r.input = tail := h.eq
        obtain ⟨e, he⟩ := h.tail.nextFrame
        rw [hinput, he]
        refine ⟨[], h, rfl, fun hnone => absurd hnone (Option.some_ne_none e), fun _ => ?_⟩
        rw [due, hpending]
        rfl
      | cons f fs =>
        obtain ⟨hsized, hrest⟩ := forall_mem_cons.mp h.sized
        have hinput : r.input = wire f ++ (fs.flatMap wire ++ tail) := by
          rw [h.eq, flatMap_cons, append_assoc]
        rw [nextFrame_eq_ok.mpr ⟨hinput, hsized⟩]
        obtain ⟨hkept, htaken⟩ := take_spec p { r with input := fs.flatMap wire ++ tail } f
        have hshort : (take p { r with input := fs.flatMap wire ++ tail } f).input.length <
            fuel := by
          rw [hkept]
          rw [hinput, length_append, length_wire] at hfuel
          dsimp only
          omega
        have hdue : due p (take p { r with input := fs.flatMap wire ++ tail } f) fs =
            due p r (f :: fs) := by
          rw [due, due, htaken, filter_cons, hpending]
          split
          · rw [flatMap_cons]
            rfl
          · rfl
        rw [← hdue]
        exact ih hshort ⟨by rw [hkept], hrest, h.tail⟩

theorem read_spec (p : Port) (h : Stream r.input fs tail) (n : Nat) :
    (∃ b fs', (read p r n).2 = .ok b ∧ Stream (read p r n).1.input fs' tail ∧
      due p r fs = b ++ due p (read p r n).1 fs' ∧ (n ≠ 0 → b ≠ [])) ∨
      ∃ e, (read p r n).2 = .error e ∧ due p r fs = [] := by
  unfold read
  split
  · next hn => exact .inl ⟨[], fs, rfl, h, rfl, fun hne => absurd hn hne⟩
  · next hn =>
    obtain ⟨fs', hstream, hdue, hsome, hnone⟩ := fill_spec p (Nat.lt_succ_self _) h
    split
    · next r' e heq =>
      rw [heq] at hnone
      exact .inr ⟨e, rfl, hnone (by simp)⟩
    · next r' heq =>
      rw [heq] at hstream hdue hsome
      refine .inl ⟨_, fs', rfl, hstream, ?_, fun _ hnil => ?_⟩
      · rw [← hdue, due, due, ← append_assoc, take_append_drop]
      · have hlength := congrArg List.length hnil
        have hpos := length_pos_iff.mpr (hsome rfl)
        dsimp only at hpos
        rw [length_take, length_nil] at hlength
        omega

/-- Reads deliver a beginning of what is due, all of it before one fails, and one fails
if there are more of them than bytes. -/
theorem reads_spec (p : Port) (h : Stream r.input fs tail) (sizes : List Nat) :
    (reads p r sizes).1 <+: due p r fs ∧
      ((reads p r sizes).2 ≠ none → (reads p r sizes).1 = due p r fs) ∧
      ((due p r fs).length < (sizes.filter (· ≠ 0)).length → (reads p r sizes).2 ≠ none) := by
  induction sizes generalizing r fs with
  | nil => exact ⟨by simp [reads], fun hne => absurd rfl hne, fun hlt => absurd hlt (by simp)⟩
  | cons n sizes ih =>
    rcases read_spec p h n with ⟨b, fs', hok, hstream, hdue, hpos⟩ | ⟨e, he, hdue⟩
    · obtain ⟨hpre, hall, hmany⟩ := ih hstream
      rw [reads]
      split
      · next heq =>
        rw [heq] at hok
        cases hok
      · next r' b' heq =>
        rw [heq] at hok hpre hall hmany hdue
        cases hok
        rw [hdue]
        refine ⟨(prefix_append_right_inj b).mpr hpre, fun hne => ?_, fun hlt => ?_⟩
        · rw [hall hne]
        · refine hmany ?_
          rw [length_append] at hlt
          rw [filter_cons] at hlt
          split at hlt
          · next hn =>
            have hb := length_pos_iff.mpr (hpos (by simpa using hn))
            rw [length_cons] at hlt
            omega
          · omega
    · rw [reads]
      split
      · next heq =>
        rw [hdue]
        exact ⟨by simp, fun _ => rfl, fun _ => by simp⟩
      · next r' b' heq =>
        rw [heq] at he
        cases he

/-- The frame has the port's hardware address as its source, is of IPv4 or ARP, and has
the port's address as its sender; in ARP the sender may be without an address. -/
structure FromPort (p : Port) (f : Bytes) : Prop where
  source : slice f 6 6 = p.mac
  type : etherType f = 0x0800 ∨ etherType f = 0x0806
  ipv4 : etherType f = 0x0800 → slice f 26 4 = p.ip
  arp : etherType f = 0x0806 → slice f 22 6 = p.mac ∧
    (slice f 28 4 = p.ip ∨ slice f 28 4 = [0, 0, 0, 0])

theorem fromPort_of_validSource {p : Port} {f : Bytes} (hmac : p.mac ≠ [])
    (h : validSource p f = true) :
    FromPort p f := by
  unfold validSource at h
  rw [if_neg hmac] at h
  split_ifs at h with hsource hipv4 harp
  · simp only [Bool.and_eq_true, decide_eq_true_eq] at h
    refine ⟨not_not.mp (not_or.mp hsource).2, .inl hipv4, fun _ => h.2, fun harp => ?_⟩
    rw [hipv4] at harp
    cases harp
  · simp only [Bool.and_eq_true, Bool.or_eq_true, decide_eq_true_eq] at h
    exact ⟨not_not.mp (not_or.mp hsource).2, .inr harp, fun hipv4' => absurd hipv4' hipv4,
      fun _ => ⟨h.1.2, h.2⟩⟩

theorem fromPort_announcement {p : Port} {f : Bytes} (h : f ∈ announcement p) : FromPort p f := by
  unfold announcement at h
  split at h
  · cases h
  · next hlengths =>
    rw [not_or, not_not, not_not] at hlengths
    rw [mem_singleton] at h
    obtain ⟨ip, mac⟩ := p
    obtain ⟨hmac, hip⟩ := hlengths
    obtain ⟨a, b, c, d, e, g, rfl⟩ : ∃ a b c d e g, mac = [a, b, c, d, e, g] := by
      rcases mac with _ | ⟨a, _ | ⟨b, _ | ⟨c, _ | ⟨d, _ | ⟨e, _ | ⟨g, _ | ⟨x, rest⟩⟩⟩⟩⟩⟩⟩ <;>
        simp only [length_cons, length_nil] at hmac <;> try omega
      exact ⟨a, b, c, d, e, g, rfl⟩
    obtain ⟨i, j, k, l, rfl⟩ : ∃ i j k l, ip = [i, j, k, l] := by
      rcases ip with _ | ⟨i, _ | ⟨j, _ | ⟨k, _ | ⟨l, _ | ⟨x, rest⟩⟩⟩⟩⟩ <;>
        simp only [length_cons, length_nil] at hip <;> try omega
      exact ⟨i, j, k, l, rfl⟩
    subst h
    have htype : ∀ rest : Bytes, etherType
      ([0xff, 0xff, 0xff, 0xff, 0xff, 0xff, a, b, c, d, e, g, 8, 6] ++ rest) =
        0x0806 := fun _ => rfl
    exact ⟨rfl, .inr (htype _), fun hipv4 => absurd ((htype _).symm.trans hipv4) (by decide),
      fun _ => ⟨rfl, .inl rfl⟩⟩

/-- However a stream is read, a port delivers its announcement and the frames of the
stream that pass, whole, unmodified and in order: a beginning of them at any time, all of
them before a read fails, and no read fails to deliver something.  All of them come from
the port. -/
theorem port_delivers (p : Port) (input : Bytes) :
    ∃ fs tail, Stream input fs tail ∧
      (∀ sizes,
        (reads p (newEthernetConn p input) sizes).1 <+:
            (announcement p ++ fs.filter (passes p)).flatMap wire ∧
          ((reads p (newEthernetConn p input) sizes).2 ≠ none →
            (reads p (newEthernetConn p input) sizes).1 =
              (announcement p ++ fs.filter (passes p)).flatMap wire) ∧
          (((announcement p ++ fs.filter (passes p)).flatMap wire).length <
            (sizes.filter (· ≠ 0)).length → (reads p (newEthernetConn p input) sizes).2 ≠ none)) ∧
      (p.mac ≠ [] → ∀ f ∈ announcement p ++ fs.filter (passes p), FromPort p f) := by
  obtain ⟨fs, tail, hstream⟩ := exists_stream input
  have hdue : due p (newEthernetConn p input) fs =
      (announcement p ++ fs.filter (passes p)).flatMap wire := by
    rw [due, flatMap_append]
    rfl
  refine ⟨fs, tail, hstream, fun sizes => ?_, fun hmac f hf => ?_⟩
  · rw [← hdue]
    exact reads_spec p hstream sizes
  · rcases mem_append.mp hf with hf | hf
    · exact fromPort_announcement hf
    · have hpass := (mem_filter.mp hf).2
      unfold passes at hpass
      rw [Bool.and_eq_true, Bool.and_eq_true] at hpass
      exact fromPort_of_validSource hmac hpass.1.2

end Jerboa.Native
