import Jerboa.Net.Lease

/-!
# Networks that do not touch

The networks of a store share no address and no bridge, whatever is created
and removed.  The comparison of base addresses in `subnetsOverlap` is first
given its meaning as sets of addresses; then one network is described by
`Placed`, two by `Apart`, and `create` and `remove` keep both.
-/

namespace Jerboa.Net.Disjoint

open List Lib Lib.Run Naming Net.Address Net.Store Net.Subnet

variable {a : IPv4}

theorem div_eq_of_contains {n : IPNet} {k : Nat} (hk : k ≤ n.ones) (hn : n.ones ≤ 32)
    (ha : n.contains a = true) : n.ip.toNat / 2 ^ (32 - k) = a.toNat / 2 ^ (32 - k) := by
  rw [contains_iff hn] at ha
  have hpow : 2 ^ (32 - k) = 2 ^ (32 - n.ones) * 2 ^ (n.ones - k) := by
    rw [← Nat.pow_add]
    congr 1
    omega
  rw [hpow, ← Nat.div_div_eq_div_mul, ← Nat.div_div_eq_div_mul, ha]

theorem contains_of_contains_ip {r n : IPNet} (hle : r.ones ≤ n.ones) (hn : n.ones ≤ 32)
    (hbase : r.contains n.ip = true) (ha : n.contains a = true) :
    r.contains a = true := by
  rw [contains_iff (hle.trans hn)] at hbase ⊢
  exact hbase.trans (div_eq_of_contains hle hn ha)

theorem contains_ip_of_common {m n : IPNet} (hle : m.ones ≤ n.ones) (hn : n.ones ≤ 32)
    (hm : m.contains a = true) (ha : n.contains a = true) : m.contains n.ip = true := by
  rw [contains_iff (hle.trans hn)] at hm ⊢
  exact hm.trans (div_eq_of_contains hle hn ha).symm

theorem not_common_of_not_overlap {m n : IPNet} (hm : m.ones ≤ 32) (hn : n.ones ≤ 32)
    (h : subnetsOverlap m n = false) (a : IPv4) :
    ¬(m.contains a = true ∧ n.contains a = true) := by
  rintro ⟨hma, hna⟩
  simp only [subnetsOverlap, Bool.or_eq_false_iff] at h
  rcases Nat.le_total m.ones n.ones with hle | hle
  · have := contains_ip_of_common hle hn hma hna
    simp [h.1] at this
  · have := contains_ip_of_common hle hm hna hma
    simp [h.2] at this

theorem exists_privateRange {n : IPNet} (hn : n.ones ≤ 32) (h : inPrivateRange n = true) :
    ∃ r ∈ privateRanges, ∀ a, n.contains a = true → r.contains a = true := by
  simp only [inPrivateRange, any_eq_true, Bool.and_eq_true, decide_eq_true_eq] at h
  obtain ⟨r, hr, hbase, hle⟩ := h
  exact ⟨r, hr, fun a => contains_of_contains_ip hle hn hbase⟩

theorem defaultSlash24_private (third : UInt8) :
    inPrivateRange ⟨{ defaultSubnet.ip with b2 := third, b3 := 0 }, 24⟩ = true := by
  apply forall_byte (P := fun third =>
    inPrivateRange ⟨{ defaultSubnet.ip with b2 := third, b3 := 0 }, 24⟩ = true)
  decide +kernel

theorem parseSubnet_private {hostConflict : IPNet → Text} {cidr : Text} {n : IPNet}
    (h : parseSubnet hostConflict cidr = .ok n) : inPrivateRange n = true := by
  unfold parseSubnet at h
  split at h
  · cases h
  · rename_i c hc
    cases c with
    | v6 =>
      simp only [checkSubnet] at h
      split_ifs at h
    | v4 =>
      simp only [checkSubnet] at h
      split_ifs at h with hprefix hprivate
      cases h
      exact hprivate

variable {s : Store} {ipNet : IPNet} {host : Host}

theorem chooseSubnet_free {subnet : Text} (h : chooseSubnet host s subnet = .ok ipNet) :
    inPrivateRange ipNet = true ∧ overlappingSubnet ipNet s.allocatedSubnets = none := by
  unfold chooseSubnet at h
  simp only at h
  split_ifs at h with hauto
  · split at h
    · rename_i chosen hchosen
      cases h
      have hfree := find?_some hchosen
      have hmem := mem_of_find?_eq_some hchosen
      obtain ⟨i, -, rfl⟩ := mem_map.mp hmem
      rw [decide_eq_true_eq] at hfree
      exact ⟨defaultSlash24_private _, hfree.1⟩
    · cases h
  · split at h
    · cases h
    · rename_i chosen hparse
      split at h
      · cases h
      · rename_i hnone
        cases h
        exact ⟨parseSubnet_private hparse, hnone⟩

/-- What `hex.EncodeToString` writes. -/
def hexDigits : Text := "0123456789abcdef".toList

theorem byteLen_append (a b : Text) : byteLen (a ++ b) = byteLen a + byteLen b := by
  simp [byteLen]

theorem byteLen_of_hex {t : Text} (h : ∀ c ∈ t, c ∈ hexDigits) : byteLen t = t.length := by
  have hsize : hexDigits.all (·.utf8Size = 1) = true := by decide
  induction t with
  | nil => rfl
  | cons c t ih =>
    have htail := ih fun d hd => h d (mem_cons_of_mem c hd)
    have hc : c.utf8Size = 1 := by
      simpa using all_eq_true.mp hsize c (h c mem_cons_self)
    simp only [byteLen, map_cons, sum_cons, length_cons] at htail ⊢
    omega

theorem byteLen_deriveBridgeName {sha256Hex : Text → Text}
    (hhex : ∀ name, ∀ c ∈ sha256Hex name, c ∈ hexDigits) (name : Text) :
    byteLen (deriveBridgeName sha256Hex name) ≤ maxIfaceNameLen := by
  unfold deriveBridgeName
  simp only
  split_ifs with hfits
  · exact hfits
  · have hprefix : byteLen bridgePrefix = bridgePrefix.length := by
      decide
    have hdigits : ∀ c ∈ (sha256Hex name).take (maxIfaceNameLen - bridgePrefix.length),
        c ∈ hexDigits := fun c hc => hhex name c (mem_of_mem_take hc)
    have hlength : bridgePrefix.length ≤ maxIfaceNameLen := by
      decide
    rw [byteLen_append, hprefix, byteLen_of_hex hdigits, length_take]
    omega

/-- The network has the address `a`. -/
def Has (n : Network) (a : IPv4) : Prop :=
  ∃ ipNet, readSubnet n = .ok ipNet ∧ ipNet.contains a = true

structure Placed (n : Network) (ipNet : IPNet) : Prop where
  valid : ipNet.Valid
  readSubnet : readSubnet n = .ok ipNet
  isPrivate : inPrivateRange ipNet = true
  gateway : n.gateway = (ipNet.addr 1).toText
  bridge : byteLen n.bridge ≤ maxIfaceNameLen

structure Apart (m n : Network) : Prop where
  addresses : ∀ a, ¬(Has m a ∧ Has n a)
  bridges : m.bridge ≠ n.bridge

structure Inv (s : Store) : Prop where
  placed : ∀ n ∈ s.list, ∃ ipNet, Placed n ipNet
  apart : s.list.Pairwise Apart

theorem Apart.symm {m n : Network} (h : Apart m n) : Apart n m :=
  ⟨fun a ha => h.addresses a ha.symm, h.bridges.symm⟩

variable {n : Network}

theorem Placed.has_iff (h : Placed n ipNet) (a : IPv4) :
    Has n a ↔ ipNet.contains a = true := by
  constructor
  · rintro ⟨other, hread, ha⟩
    cases h.readSubnet.symm.trans hread
    exact ha
  · intro ha
    exact ⟨ipNet, h.readSubnet, ha⟩

theorem insertDir_perm (d : NetworkDir) (ds : List NetworkDir) :
    (insertDir d ds).Perm (d :: ds) := by
  induction ds with
  | nil => exact .refl _
  | cons e ds ih =>
    unfold insertDir
    split_ifs
    · exact .refl _
    · exact (ih.cons e).trans (.swap d e ds)

theorem list_insertDir_perm (d : NetworkDir) (s : Store) :
    (list ⟨insertDir d s.dirs⟩).Perm (d.network :: s.list) :=
  (insertDir_perm d s.dirs).map NetworkDir.network

/-- The networks a request may not touch are all those of the store: the
allocated subnets are read back from their records. -/
theorem not_overlap_of_free (hfree : overlappingSubnet ipNet s.allocatedSubnets = none)
    (hn : n ∈ s.list) {other : IPNet} (hplaced : Placed n other) :
    subnetsOverlap ipNet other = false := by
  have hmem : (other, n.name) ∈ s.allocatedSubnets :=
    mem_filterMap.mpr ⟨n, hn, by rw [hplaced.readSubnet]⟩
  simp only [overlappingSubnet, Option.map_eq_none_iff, find?_eq_none] at hfree
  exact Bool.eq_false_iff.mpr (hfree _ hmem)

theorem name_ne_of_find? {name : Text} (hnew : s.find? name = none) (hn : n ∈ s.list) :
    n.name ≠ name := by
  obtain ⟨d, hd, rfl⟩ := mem_map.mp hn
  simpa using find?_eq_none.mp hnew d hd

theorem bridge_ne_of_available {name bridge : Text} (hnew : s.find? name = none)
    (h : s.ensureBridgeAvailable name bridge = .ok ()) (hn : n ∈ s.list) :
    n.bridge ≠ bridge := by
  unfold ensureBridgeAvailable at h
  split at h
  · cases h
  · rename_i hnone
    have hother := find?_eq_none.mp hnone n hn
    simpa [name_ne_of_find? hnew hn] using hother

theorem create_bridge {s s' : Store} {name subnet driver : Text}
    (h : create host s name subnet driver = .ok (n, s')) :
    n.bridge = deriveBridgeName host.sha256Hex name ∧
      s.ensureBridgeAvailable name n.bridge = .ok () := by
  simp only [create, networkDir, bind_eq_ok, mapError_eq_ok, throwIf_eq_ok, pure_eq_ok] at h
  obtain ⟨-, -, -, -, ipNet, -, ⟨⟩, hbridge, heq⟩ := h
  cases heq
  -- The fields are read off before the names are compared.
  refine ⟨by dsimp only, ?_⟩
  exact hbridge

theorem inv_create (hhex : ∀ name, ∀ c ∈ host.sha256Hex name, c ∈ hexDigits) {s s' : Store}
    {name subnet driver : Text} (hs : Inv s) (h : create host s name subnet driver = .ok (n, s')) :
    Inv s' := by
  obtain ⟨-, hnew, ipNet, hchoose, -, hsubnet, hgateway, rfl⟩ := create_eq_ok h
  obtain ⟨hbridge, havailable⟩ := create_bridge h
  obtain ⟨hprivate, hfree⟩ := chooseSubnet_free hchoose
  have hvalid := Allocator.chooseSubnet_valid hchoose
  have hread : readSubnet n = .ok ipNet := by
    unfold Store.readSubnet
    rw [hsubnet, parseCIDR_toText hvalid]
    rfl
  have hplaced : Placed n ipNet :=
    { valid := hvalid
      readSubnet := hread
      isPrivate := hprivate
      gateway := by rw [hgateway, firstHost_eq hvalid]
      bridge := by
        rw [hbridge]
        exact byteLen_deriveBridgeName hhex name }
  have hperm := list_insertDir_perm ⟨n, initialState (firstHost ipNet)⟩ s
  constructor
  · intro m hm
    rcases mem_cons.mp (hperm.mem_iff.mp hm) with rfl | hm
    · exact ⟨ipNet, hplaced⟩
    · exact hs.placed m hm
  · rw [hperm.pairwise_iff Apart.symm]
    refine pairwise_cons.mpr ⟨fun m hm => ⟨?_, ?_⟩, hs.apart⟩
    · intro a
      obtain ⟨other, hother⟩ := hs.placed m hm
      rw [hplaced.has_iff, hother.has_iff]
      exact not_common_of_not_overlap hvalid.ones_le hother.valid.ones_le
        (not_overlap_of_free hfree hm hother) a
    · exact (bridge_ne_of_available hnew havailable hm).symm

theorem inv_remove {s s' : Store} {name : Text} (hs : Inv s) (h : s.remove name = .ok s') :
    Inv s' := by
  simp only [remove, bind_eq_ok, pure_eq_ok] at h
  obtain ⟨-, -, rfl⟩ := h
  have hsub : (list ⟨s.dirs.filter (·.network.name ≠ name)⟩).Sublist s.list :=
    filter_sublist.map NetworkDir.network
  exact ⟨fun n hn => hs.placed n (hsub.subset hn), hs.apart.sublist hsub⟩

/-- The requests that change which networks there are.  The host's own
interfaces and routes may differ from one request to the next. -/
inductive Call where
  | create (hostConflict : IPNet → Text) (name subnet driver : Text)
  | remove (name : Text)

/-- The store after a request; one that is refused changes nothing. -/
def apply (sha256Hex : Text → Text) (s : Store) : Call → Store
  | .create hostConflict name subnet driver =>
    Allocator.outcome s (Prod.snd <$> s.create ⟨hostConflict, sha256Hex⟩ name subnet driver)
  | .remove name => Allocator.outcome s (s.remove name)

theorem inv_apply {sha256Hex : Text → Text}
    (hhex : ∀ name, ∀ c ∈ sha256Hex name, c ∈ hexDigits) (s : Store) (call : Call) (hs : Inv s) :
    Inv (apply sha256Hex s call) := by
  cases call with
  | create =>
    apply Allocator.outcome_induction hs
    intro s' h
    obtain ⟨⟨n, _⟩, hcreate, rfl⟩ := map_eq_ok.mp h
    exact inv_create hhex hs hcreate
  | remove => exact Allocator.outcome_induction hs fun _ => inv_remove hs

theorem inv_empty : Inv Store.empty :=
  ⟨nofun, List.Pairwise.nil⟩

/-- After any history of creations and removals, every network is on a
private IPv4 subnet with a prefix of 16 to 29 bits, has the first host as its
gateway and a bridge name of at most 15 bytes, and no two networks share an
address or a bridge name. -/
theorem networks_apart (sha256Hex : Text → Text)
    (hhex : ∀ name, ∀ c ∈ sha256Hex name, c ∈ hexDigits) (calls : List Call) :
    (∀ n ∈ (run (apply sha256Hex) Store.empty calls).list, ∃ ipNet,
      readSubnet n = .ok ipNet ∧
        (∃ r ∈ privateRanges, ∀ a, ipNet.contains a = true → r.contains a = true) ∧
        minSubnetPrefix ≤ ipNet.ones ∧ ipNet.ones ≤ maxSubnetPrefix ∧
        n.gateway = (ipNet.addr 1).toText ∧ byteLen n.bridge ≤ 15) ∧
      (run (apply sha256Hex) Store.empty calls).list.Pairwise fun m n =>
        (∀ a, ¬(Has m a ∧ Has n a)) ∧ m.bridge ≠ n.bridge := by
  have hinv : Inv (run (apply sha256Hex) Store.empty calls) :=
    run_invariant (inv_apply hhex) inv_empty calls
  constructor
  · intro n hn
    obtain ⟨ipNet, h⟩ := hinv.placed n hn
    exact ⟨ipNet, h.readSubnet, exists_privateRange h.valid.ones_le h.isPrivate, h.valid.min,
      h.valid.max, h.gateway, h.bridge⟩
  · exact hinv.apart.imp fun h => ⟨h.addresses, h.bridges⟩

/-- A network on a chosen subnet, one on the first automatic /24 beside it, and a
third that is refused because it would overlap the first. -/
def threeCalls : List Call :=
  [.create (fun _ => []) "app".toList "10.100.0.0/20".toList [],
    .create (fun _ => []) "backend".toList [] [],
    .create (fun _ => []) "other".toList "10.100.15.0/24".toList []]

/-- SHA-256 of the one name among them that is too long for a bridge. -/
def backendHex (name : Text) : Text :=
  if name = "backend".toList then
    "10e08a419e850eba1ebba18fdd28eb7ec1b7e8baa9bcc3b973e2b8891ec726be".toList
  else []

theorem mem_hexDigits_backendHex (name : Text) : ∀ c ∈ backendHex name, c ∈ hexDigits := by
  have hall : (backendHex "backend".toList).all (hexDigits.contains ·) = true := by decide +kernel
  by_cases hname : name = "backend".toList
  · intro c hc
    simpa using all_eq_true.mp hall c (hname ▸ hc)
  · unfold backendHex
    rw [if_neg hname]
    exact nofun

theorem networks_apart_three :
    ((run (apply backendHex) Store.empty threeCalls).list.map fun n => (n.subnet, n.bridge)) =
        [("10.100.0.0/20".toList, "jerboa-br-app".toList),
          ("10.100.16.0/24".toList, "jerboa-br-10e08".toList)] ∧
      (run (apply backendHex) Store.empty threeCalls).list.Pairwise fun m n =>
        (∀ a, ¬(Has m a ∧ Has n a)) ∧ m.bridge ≠ n.bridge :=
  ⟨by decide +kernel, (networks_apart backendHex mem_hexDigits_backendHex threeCalls).2⟩

end Jerboa.Net.Disjoint
