import Jerboa.Lib.Pool
import Jerboa.Lib.Run
import Jerboa.Net.Store
import Mathlib.Data.Finset.Filter
import Mathlib.Data.Finset.Range

/-!
# The address allocator

The leases of a network as a first-fit pool: `allocatedIPs` lists the taken
slots and `nextIndex` is the cursor.  Every operation of the store is an
operation of the pool, so the pool's invariant (nothing is free below the
cursor) holds after any history of requests, and `AllocateIP` hands out the
lowest free address.
-/

namespace Jerboa.Net.Allocator

open Lib Lib.Run Naming Net.Address Net.Subnet Net.Store

def leased (ipNet : IPNet) (st : NetworkState) : Finset Nat :=
  {i ∈ Finset.range ipNet.size | (ipNet.addr i).toText ∈ st.allocatedIPs}

variable {i : Nat}

@[simp] theorem mem_leased {ipNet : IPNet} {st : NetworkState} :
    i ∈ leased ipNet st ↔ i < ipNet.size ∧ (ipNet.addr i).toText ∈ st.allocatedIPs := by
  simp [leased]

structure Represents (ipNet : IPNet) (st : NetworkState) (p : Pool 2 ipNet.size) : Prop where
  cursor : p.cursor = st.nextIndex
  taken : p.taken = leased ipNet st

variable {ipNet : IPNet} {st : NetworkState}

theorem leased_append (hvalid : ipNet.Valid) (hi : i < ipNet.size) (index : Nat)
    (pending : AList fun _ : Text => Text) :
    leased ipNet ⟨st.allocatedIPs ++ [(ipNet.addr i).toText], index, pending⟩ =
      insert i (leased ipNet st) := by
  ext j
  simp only [mem_leased, Finset.mem_insert, List.mem_append, List.mem_singleton,
    IPv4.toText_inj]
  constructor
  · rintro ⟨hj, hmem | heq⟩
    · exact .inr ⟨hj, hmem⟩
    · exact .inl (hvalid.addr_injective hj hi heq)
  · rintro (rfl | ⟨hj, hmem⟩)
    · exact ⟨hi, .inr rfl⟩
    · exact ⟨hj, .inl hmem⟩

theorem leased_erase (hvalid : ipNet.Valid) (hnodup : st.allocatedIPs.Nodup) (hi : i < ipNet.size)
    (index : Nat) (pending : AList fun _ : Text => Text) :
    leased ipNet ⟨st.allocatedIPs.erase (ipNet.addr i).toText, index, pending⟩ =
      (leased ipNet st).erase i := by
  ext j
  simp only [mem_leased, Finset.mem_erase, hnodup.mem_erase_iff, ne_eq, IPv4.toText_inj]
  constructor
  · rintro ⟨hj, hne, hmem⟩
    exact ⟨fun heq => hne (by rw [heq]), hj, hmem⟩
  · rintro ⟨hne, hj, hmem⟩
    exact ⟨hj, fun heq => hne (hvalid.addr_injective hj hi heq), hmem⟩

/-- The search of `AllocateIP` stops within a subnet's size: at the first
address that is not listed, or past the subnet's last address. -/
theorem search_spec (hvalid : ipNet.Valid) (allocated : List Text) :
    ∀ fuel index, index ≤ ipNet.size → ipNet.size - index < fuel →
      (search ipNet allocated fuel index = .exhausted ∧
        ∀ j, index ≤ j → j < ipNet.size → (ipNet.addr j).toText ∈ allocated) ∨
      ∃ i, search ipNet allocated fuel index = .found (ipNet.addr i) (i + 1) ∧
        index ≤ i ∧ i < ipNet.size ∧ (ipNet.addr i).toText ∉ allocated ∧
        ∀ j, index ≤ j → j < i → (ipNet.addr j).toText ∈ allocated := by
  intro fuel
  induction fuel with
  | zero =>
    intro index _ hfuel
    omega
  | succ fuel ih =>
    intro index hindex hfuel
    by_cases hend : index = ipNet.size
    · left
      rw [hend, search, nextIP_size hvalid]
      exact ⟨rfl, fun j hj hlt => by omega⟩
    have hlt : index < ipNet.size := by omega
    rw [search, nextIP_of_lt hvalid hlt]
    by_cases hmem : (ipNet.addr index).toText ∈ allocated
    · -- the candidate is taken and the search goes on at the next one
      simp only [if_pos hmem]
      have hskip : ∀ {b : Nat},
          (∀ j, index + 1 ≤ j → j < b → (ipNet.addr j).toText ∈ allocated) →
          ∀ j, index ≤ j → j < b → (ipNet.addr j).toText ∈ allocated := by
        intro b hb j hj hjb
        by_cases heq : j = index
        · rw [heq]
          exact hmem
        · exact hb j (by omega) hjb
      rcases ih (index + 1) (by omega) (by omega)
        with ⟨hres, hall⟩ | ⟨i, hres, hle, hi, hfree, hall⟩
      · exact .inl ⟨hres, hskip hall⟩
      · exact .inr ⟨i, hres, by omega, hi, hfree, hskip hall⟩
    · simp only [if_neg hmem]
      exact .inr ⟨index, rfl, le_rfl, hlt, hmem, fun j hj hlt => by omega⟩

/-! ## The invariant of one network -/

structure Leases (ipNet : IPNet) (st : NetworkState) : Prop where
  nodup : st.allocatedIPs.Nodup
  hosts : ∀ ip ∈ st.allocatedIPs, ∃ i, 1 ≤ i ∧ i < ipNet.size ∧ ip = (ipNet.addr i).toText
  pool : ∃ p : Pool 2 ipNet.size, Represents ipNet st p

theorem Leases.initial (hvalid : ipNet.Valid) : Leases ipNet (initialState (firstHost ipNet)) := by
  have hsize := hvalid.size_ge
  refine ⟨by simp [initialState], ?_, ?_⟩
  · intro ip hip
    simp only [initialState, List.mem_singleton] at hip
    exact ⟨1, le_rfl, by omega, by rw [hip, firstHost_eq hvalid]⟩
  · exact ⟨Pool.init (by omega) (leased ipNet (initialState (firstHost ipNet))), rfl, rfl⟩

theorem Leases.nodup_append (h : Leases ipNet st) {ip : Text} (hip : ip ∉ st.allocatedIPs) :
    (st.allocatedIPs ++ [ip]).Nodup := by
  rw [List.nodup_append]
  refine ⟨h.nodup, List.nodup_singleton ip, ?_⟩
  rintro a ha b hb rfl
  rw [List.mem_singleton] at hb
  exact hip (hb ▸ ha)

theorem Leases.hosts_append (h : Leases ipNet st) (hpos : 1 ≤ i) (hi : i < ipNet.size) :
    ∀ ip ∈ st.allocatedIPs ++ [(ipNet.addr i).toText],
      ∃ j, 1 ≤ j ∧ j < ipNet.size ∧ ip = (ipNet.addr j).toText := by
  intro ip hip
  rcases List.mem_append.mp hip with hold | hnew
  · exact h.hosts ip hold
  · exact ⟨i, hpos, hi, List.mem_singleton.mp hnew⟩

theorem Leases.reserve (hvalid : ipNet.Valid) (h : Leases ipNet st) (hpos : 1 ≤ i)
    (hi : i < ipNet.size) (hfree : (ipNet.addr i).toText ∉ st.allocatedIPs) :
    Leases ipNet { st with allocatedIPs := st.allocatedIPs ++ [(ipNet.addr i).toText] } := by
  obtain ⟨p, hp⟩ := h.pool
  refine ⟨h.nodup_append hfree, h.hosts_append hpos hi, p.reserve i, hp.cursor, ?_⟩
  rw [leased_append hvalid hi, ← hp.taken]
  rfl

theorem Leases.take (hvalid : ipNet.Valid) (h : Leases ipNet st) {p : Pool 2 ipNet.size}
    (hp : Represents ipNet st p) (hleast : IsLeast p.free i) :
    Leases ipNet
      { st with
        allocatedIPs := st.allocatedIPs ++ [(ipNet.addr i).toText], nextIndex := i + 1 } := by
  obtain ⟨hlo, hi, htaken⟩ := hleast.1
  have hfree : (ipNet.addr i).toText ∉ st.allocatedIPs := by
    intro hmem
    rw [hp.taken] at htaken
    exact htaken (mem_leased.mpr ⟨hi, hmem⟩)
  refine ⟨h.nodup_append hfree, h.hosts_append (by omega) hi, p.take hleast, rfl, ?_⟩
  rw [leased_append hvalid hi, ← hp.taken]
  rfl

theorem Leases.erase (hvalid : ipNet.Valid) (h : Leases ipNet st) {ip : Text}
    (hmem : ip ∈ st.allocatedIPs) (pending : AList fun _ : Text => Text) :
    Leases ipNet ⟨st.allocatedIPs.erase ip, 2, pending⟩ := by
  obtain ⟨p, hp⟩ := h.pool
  obtain ⟨i, -, hi, rfl⟩ := h.hosts ip hmem
  refine ⟨h.nodup.erase _, fun a ha => h.hosts a (List.mem_of_mem_erase ha), p.release i, rfl, ?_⟩
  rw [leased_erase hvalid h.nodup hi, ← hp.taken]
  rfl

theorem Leases.of_pending (h : Leases ipNet st) (pending : AList fun _ : Text => Text) :
    Leases ipNet { st with pendingReleases := pending } := by
  obtain ⟨p, hp⟩ := h.pool
  exact ⟨h.nodup, h.hosts, p, hp.cursor, hp.taken⟩

theorem Leases.releaseState (hvalid : ipNet.Valid) (h : Leases ipNet st) (ip : Text) :
    Leases ipNet (releaseState st ip) := by
  unfold Store.releaseState
  split_ifs with hmem
  · exact h.erase hvalid hmem _
  · exact h

theorem Leases.prepareState (h : Leases ipNet st) (owner ip : Text) :
    Leases ipNet (prepareState st owner ip) := by
  unfold Store.prepareState
  split_ifs
  · exact h.of_pending _
  · exact h

theorem Leases.recoverState (hvalid : ipNet.Valid) (h : Leases ipNet st) (live : Text → Bool) :
    Leases ipNet (recoverState live st) := by
  have hfold : ∀ (intents : List (Sigma fun _ : Text => Text)) (st : NetworkState),
      Leases ipNet st → Leases ipNet (intents.foldl (recoverRelease live) st) := by
    intro intents
    induction intents with
    | nil => exact fun _ hst => hst
    | cons intent intents ih =>
      intro st hst
      apply ih
      unfold recoverRelease
      split_ifs with hlive hmem
      · exact hst
      · exact hst.erase hvalid hmem _
      · exact hst
  exact (hfold _ st h).of_pending ∅

/-! ## The invariant of the store -/

structure DirInv (d : NetworkDir) (ipNet : IPNet) : Prop where
  valid : ipNet.Valid
  name : validateResourceName d.network.name = .ok ()
  subnet : d.network.subnet = ipNet.toText
  gateway : d.network.gateway = (ipNet.addr 1).toText
  leases : Leases ipNet d.state

def Inv (s : Store) : Prop := ∀ name d, s.find? name = some d → ∃ ipNet, DirInv d ipNet

variable {d : NetworkDir}

theorem DirInv.readSubnet (h : DirInv d ipNet) :
    readSubnet d.network = .ok ipNet := by
  unfold Store.readSubnet
  rw [h.subnet, parseCIDR_toText h.valid]
  rfl

theorem DirInv.of_leases {n : Network} (h : DirInv ⟨n, st⟩ ipNet) {st' : NetworkState}
    (hst : Leases ipNet st') : DirInv ⟨n, st'⟩ ipNet :=
  { h with leases := hst }

theorem defaultSlash24_valid (third : UInt8) :
    IPNet.Valid ⟨{ defaultSubnet.ip with b2 := third, b3 := 0 }, 24⟩ := by
  refine ⟨?_, ?_, ?_⟩
  · change 16 ≤ 24
    omega
  · change 24 ≤ 29
    omega
  · have hmask : cidrMask 24 = ⟨255, 255, 255, 0⟩ := by
      decide
    simp [IPv4.mask, hmask, and_full]

variable {s : Store}

theorem chooseSubnet_valid {host : Host} {subnet : Text}
    (h : chooseSubnet host s subnet = .ok ipNet) : ipNet.Valid := by
  unfold chooseSubnet at h
  simp only at h
  split_ifs at h with hauto
  · split at h
    · rename_i chosen hchosen
      cases h
      have hmem := List.mem_of_find?_eq_some hchosen
      obtain ⟨i, -, rfl⟩ := List.mem_map.mp hmem
      exact defaultSlash24_valid _
    · cases h
  · split at h
    · cases h
    · rename_i chosen hparse
      split at h
      · cases h
      · cases h
        exact parseSubnet_valid hparse

variable {name : Text}

theorem inv_writeNetworkState (hs : Inv s) {st : NetworkState}
    (hst : ∀ d ipNet, s.find? name = some d → DirInv d ipNet → Leases ipNet st) :
    Inv (s.writeNetworkState name st) := by
  intro m d hd
  rw [find?_writeNetworkState] at hd
  split_ifs at hd with hm
  · obtain ⟨e, he, rfl⟩ := Option.map_eq_some_iff.mp hd
    obtain ⟨ipNet, hnet⟩ := hs name e he
    exact ⟨ipNet, hnet.of_leases (hst e ipNet he hnet)⟩
  · exact hs m d hd

theorem allocateIP_cases (hfind : s.find? name = some d) (hdir : DirInv d ipNet) :
    ∃ p : Pool 2 ipNet.size, Represents ipNet d.state p ∧
      ((s.allocateIP name = .error (.noAvailableIPs name d.network.subnet) ∧ p.free = ∅) ∨
        ∃ i, IsLeast p.free i ∧
          s.allocateIP name =
            .ok (ipNet.addr i, s.writeNetworkState name
              { d.state with
                allocatedIPs := d.state.allocatedIPs ++ [(ipNet.addr i).toText]
                nextIndex := i + 1 })) := by
  obtain ⟨p, hp⟩ := hdir.leases.pool
  refine ⟨p, hp, ?_⟩
  have hname : validateResourceName name = .ok () := name_of_find? hfind ▸ hdir.name
  have htaken : ∀ j, j < ipNet.size → (ipNet.addr j).toText ∈ d.state.allocatedIPs →
      j ∈ p.taken := fun j hj hmem => hp.taken ▸ mem_leased.mpr ⟨hj, hmem⟩
  have hlo := p.lo_le
  have hhi := p.le_hi
  have hcursor := hp.cursor
  rw [allocateIP_eq hname hfind hdir.readSubnet]
  rcases search_spec hdir.valid d.state.allocatedIPs ipNet.size d.state.nextIndex
      (by omega) (by omega) with ⟨hres, hall⟩ | ⟨i, hres, hle, hi, hfree, hall⟩
  · left
    rw [hres]
    refine ⟨rfl, Set.eq_empty_iff_forall_notMem.mpr fun i hi => hi.2.2 ?_⟩
    exact p.mem_taken_of_search (fun j hj hlt => htaken j hlt (hall j (by omega) hlt)) hi.1 hi.2.1
  · right
    rw [hres]
    refine ⟨i, p.isLeast_of_search (by omega) hi ?_ ?_, rfl⟩
    · rw [hp.taken]
      exact fun hmem => hfree (mem_leased.mp hmem).2
    · exact fun j hj hlt => htaken j (by omega) (hall j (by omega) hlt)

/-! ## Histories -/

/-- The requests on a store. -/
inductive Op where
  | create (host : Host) (name subnet driver : Text)
  | reserveIP (name ip : Text)
  | allocateIP (name : Text)
  | releaseIP (name ip : Text)
  | prepareRelease (name owner ip : Text)
  | recoverReleases (live : Text → Bool)

def outcome (s : Store) : Except StoreErr Store → Store
  | .ok s' => s'
  | .error _ => s

/-- The store after a request. -/
def apply (s : Store) : Op → Store
  | .create host name subnet driver => outcome s (Prod.snd <$> s.create host name subnet driver)
  | .reserveIP name ip => outcome s (s.reserveIP name ip)
  | .allocateIP name => outcome s (Prod.snd <$> s.allocateIP name)
  | .releaseIP name ip => outcome s (s.releaseIP name ip)
  | .prepareRelease name owner ip => outcome s (s.prepareRelease name owner ip)
  | .recoverReleases live => s.recoverReleases live

theorem outcome_induction {P : Store → Prop} (hs : P s) {r : Except StoreErr Store}
    (hr : ∀ s', r = .ok s' → P s') : P (outcome s r) := by
  cases r with
  | error => exact hs
  | ok s' => exact hr s' rfl

theorem inv_empty : Inv Store.empty := by
  intro name d hd
  simp [Store.empty, find?] at hd

theorem inv_create {host : Host} {s s' : Store} {name subnet driver : Text} {n : Network}
    (hs : Inv s) (h : s.create host name subnet driver = .ok (n, s')) : Inv s' := by
  obtain ⟨hname, hnew, ipNet, hchoose, rfl, hsubnet, hgateway, rfl⟩ := create_eq_ok h
  have hvalid := chooseSubnet_valid hchoose
  intro m d hd
  rw [find?_insertDir _ _ hnew] at hd
  split_ifs at hd with hm
  · cases hd
    rw [firstHost_eq hvalid] at hgateway
    exact ⟨ipNet, hvalid, hname, hsubnet, hgateway, Leases.initial hvalid⟩
  · exact hs m d hd

theorem inv_reserveIP {s s' : Store} {name ip : Text} (hs : Inv s)
    (h : s.reserveIP name ip = .ok s') : Inv s' := by
  obtain ⟨-, n, st, a, ipNet, hfind, -, hnet, hin, husable, hfree, rfl⟩ := reserveIP_eq_ok.mp h
  apply inv_writeNetworkState hs
  intro d ipNet' hfind' hdir
  rw [hfind] at hfind'
  cases hfind'
  cases hnet.symm.trans hdir.readSubnet
  obtain ⟨i, hi, rfl⟩ := hdir.valid.exists_addr hin
  have hpos : 1 ≤ i := by
    by_contra hzero
    have : i = 0 := by omega
    subst this
    simp [networkOrBroadcast] at husable
  exact hdir.leases.reserve hdir.valid hpos hi hfree

theorem inv_allocateIP {s s' : Store} {ip : IPv4} (hs : Inv s)
    (h : s.allocateIP name = .ok (ip, s')) : Inv s' := by
  obtain ⟨-, n, st, ipNet, -, hfind, -⟩ := allocateIP_eq_ok h
  obtain ⟨ipNet, hdir⟩ := hs name _ hfind
  obtain ⟨p, hp, ⟨herr, -⟩ | ⟨i, hleast, hok⟩⟩ := allocateIP_cases hfind hdir
  · rw [herr] at h
    cases h
  · rw [hok] at h
    cases h
    apply inv_writeNetworkState hs
    intro d ipNet' hfind' hdir'
    rw [hfind] at hfind'
    cases hfind'
    cases hdir.readSubnet.symm.trans hdir'.readSubnet
    exact hdir'.leases.take hdir'.valid hp hleast

theorem inv_releaseIP {s s' : Store} {name ip : Text} (hs : Inv s)
    (h : s.releaseIP name ip = .ok s') : Inv s' := by
  obtain ⟨-, d, hfind, rfl⟩ := releaseIP_eq_ok.mp h
  apply inv_writeNetworkState hs
  intro e ipNet hfind' hdir
  cases hfind.symm.trans hfind'
  exact hdir.leases.releaseState hdir.valid ip

theorem inv_prepareRelease {s s' : Store} {name owner ip : Text} (hs : Inv s)
    (h : s.prepareRelease name owner ip = .ok s') : Inv s' := by
  obtain ⟨-, d, hfind, rfl⟩ := prepareRelease_eq_ok.mp h
  apply inv_writeNetworkState hs
  intro e ipNet hfind' hdir
  cases hfind.symm.trans hfind'
  exact hdir.leases.prepareState owner ip

theorem inv_recoverReleases (hs : Inv s) (live : Text → Bool) :
    Inv (s.recoverReleases live) := by
  intro m d hd
  rw [find?_recoverReleases] at hd
  obtain ⟨e, he, rfl⟩ := Option.map_eq_some_iff.mp hd
  obtain ⟨ipNet, hdir⟩ := hs m e he
  exact ⟨ipNet, hdir.of_leases (hdir.leases.recoverState hdir.valid live)⟩

theorem inv_apply (s : Store) (op : Op) (hs : Inv s) : Inv (apply s op) := by
  cases op with
  | create =>
    apply outcome_induction hs
    intro s' h
    obtain ⟨⟨n, _⟩, hcreate, rfl⟩ := map_eq_ok.mp h
    exact inv_create hs hcreate
  | reserveIP => exact outcome_induction hs fun _ => inv_reserveIP hs
  | allocateIP =>
    apply outcome_induction hs
    intro s' h
    obtain ⟨⟨ip, _⟩, hallocate, rfl⟩ := map_eq_ok.mp h
    exact inv_allocateIP hs hallocate
  | releaseIP => exact outcome_induction hs fun _ => inv_releaseIP hs
  | prepareRelease => exact outcome_induction hs fun _ => inv_prepareRelease hs
  | recoverReleases live => exact inv_recoverReleases hs live

theorem inv_run (ops : List Op) : Inv (run apply Store.empty ops) :=
  run_invariant inv_apply inv_empty ops

/-- After any history, every address below the cursor is listed; `AllocateIP`
fails only if every address from the third to the last is, and otherwise
returns the lowest that is not. -/
theorem allocateIP_first_fit (ops : List Op) (name : Text) (d : NetworkDir)
    (hfind : (run apply Store.empty ops).find? name = some d) :
    ∃ ipNet : IPNet, readSubnet d.network = .ok ipNet ∧
      (∀ i, 2 ≤ i → i < d.state.nextIndex →
        i < ipNet.size ∧ (ipNet.addr i).toText ∈ d.state.allocatedIPs) ∧
      match (run apply Store.empty ops).allocateIP name with
      | .error _ =>
        ∀ i, 2 ≤ i → i < ipNet.size → (ipNet.addr i).toText ∈ d.state.allocatedIPs
      | .ok (ip, _) =>
        ∃ i, 2 ≤ i ∧ i < ipNet.size ∧ ip = ipNet.addr i ∧ ip.toText ∉ d.state.allocatedIPs ∧
          ∀ j, 2 ≤ j → j < i → (ipNet.addr j).toText ∈ d.state.allocatedIPs := by
  obtain ⟨ipNet, hdir⟩ := inv_run ops name d hfind
  obtain ⟨p, hp, hcases⟩ := allocateIP_cases hfind hdir
  refine ⟨ipNet, hdir.readSubnet, ?_, ?_⟩
  · intro i hlo hlt
    rw [← mem_leased, ← hp.taken]
    exact p.dense i hlo (hp.cursor ▸ hlt)
  · have hlisted : ∀ i, 2 ≤ i → i < ipNet.size → i ∉ p.free →
        (ipNet.addr i).toText ∈ d.state.allocatedIPs := by
      intro i hlo hi hnot
      have htaken : i ∈ p.taken := by
        by_contra hfree
        exact hnot ⟨hlo, hi, hfree⟩
      rw [hp.taken] at htaken
      exact (mem_leased.mp htaken).2
    rcases hcases with ⟨herr, hfull⟩ | ⟨i, hleast, hok⟩
    · rw [herr]
      exact fun i hlo hi => hlisted i hlo hi (by simp [hfull])
    · rw [hok]
      obtain ⟨hlo, hi, hfree⟩ := hleast.1
      rw [hp.taken] at hfree
      refine ⟨i, hlo, hi, rfl, fun hmem => hfree (mem_leased.mpr ⟨hi, hmem⟩), ?_⟩
      intro j hj hji
      refine hlisted j hj (by omega) fun hjfree => ?_
      have hle : i ≤ j := hleast.2 hjfree
      omega

def quietHost : Host := ⟨fun _ => [], fun _ => []⟩

/-- A network with eight addresses, and `n` addresses allocated on it. -/
def allocations (n : Nat) : List Op :=
  .create quietHost "app".toList "10.0.0.0/29".toList [] ::
    List.replicate n (.allocateIP "app".toList)

theorem allocateIP_first_fit_slash29 :
    ∃ d ipNet, (run apply Store.empty (allocations 3)).find? "app".toList = some d ∧
      readSubnet d.network = .ok ipNet ∧
      ∀ i, 2 ≤ i → i < d.state.nextIndex →
        i < ipNet.size ∧ (ipNet.addr i).toText ∈ d.state.allocatedIPs := by
  have hsome : ((run apply Store.empty (allocations 3)).find? "app".toList).isSome = true := by
    decide +kernel
  obtain ⟨d, hd⟩ := Option.isSome_iff_exists.mp hsome
  obtain ⟨ipNet, hnet, hbelow, -⟩ := allocateIP_first_fit (allocations 3) "app".toList d hd
  exact ⟨d, ipNet, hd, hnet, hbelow⟩

/-! ## Which addresses are handed out -/

def given (s : Store) : Op → Option (Text × IPv4)
  | .allocateIP name =>
    match s.allocateIP name with
    | .ok (ip, _) => some (name, ip)
    | .error _ => none
  | .reserveIP name ip =>
    match s.reserveIP name ip with
    | .ok _ => (parseTo4 ip).map fun parsed => (name, parsed)
    | .error _ => none
  | _ => none

/-- An address of the network's subnet that a host can have: neither the
subnet's own, nor its broadcast address, nor the gateway. -/
def UsableHost (n : Network) (a : IPv4) : Prop :=
  ∃ ipNet ∈ (readSubnet n).toOption,
    ipNet.contains a = true ∧ a ≠ ipNet.ip ∧ a ≠ broadcast ipNet ∧ a.toText ≠ n.gateway
deriving Decidable

/-- A request hands out a usable address or none. -/
def GivesUsable (s : Store) (op : Op) : Prop :=
  ∀ g ∈ given s op, ∃ d ∈ s.find? g.1, UsableHost d.network g.2
deriving Decidable

/-- The requests that do not reach the two gaps of the allocator.  `nextIP`
does not leave out the broadcast address, so a network must have another free
host when an address is allocated, or have the broadcast address listed; and
`ReserveIP` knows the gateway by its lease only, so that lease must be there
when the gateway's address is asked for. -/
def HostLeft (s : Store) : Op → Prop
  | .allocateIP name =>
    ∀ d ∈ s.find? name, ∀ ipNet ∈ (readSubnet d.network).toOption,
      (broadcast ipNet).toText ∈ d.state.allocatedIPs ∨
        ∃ i, 2 ≤ i ∧ i + 1 < ipNet.size ∧ (ipNet.addr i).toText ∉ d.state.allocatedIPs
  | .reserveIP name ip =>
    ∀ d ∈ s.find? name, ∀ a ∈ parseTo4 ip,
      a.toText = d.network.gateway → d.network.gateway ∈ d.state.allocatedIPs
  | _ => True

theorem usableHost_addr (hdir : DirInv d ipNet) (hi : i < ipNet.size) :
    UsableHost d.network (ipNet.addr i) ↔ 2 ≤ i ∧ i + 1 < ipNet.size := by
  have hvalid := hdir.valid
  have hsize := hvalid.size_ge
  have hne : ∀ j, j < ipNet.size → (ipNet.addr i ≠ ipNet.addr j ↔ i ≠ j) := by
    intro j hj
    exact ⟨fun h heq => h (heq ▸ rfl), fun h heq => h (hvalid.addr_injective hi hj heq)⟩
  have hzero := hne 0 (by omega)
  have hgateway := hne 1 (by omega)
  have hlast := hne (ipNet.size - 1) (by omega)
  rw [IPNet.Valid.addr_zero] at hzero
  have husable : UsableHost d.network (ipNet.addr i) ↔
      ipNet.addr i ≠ ipNet.ip ∧ ipNet.addr i ≠ ipNet.addr (ipNet.size - 1) ∧
        ipNet.addr i ≠ ipNet.addr 1 := by
    simp [UsableHost, hdir.readSubnet, Except.toOption, hvalid.contains_addr hi, hdir.gateway,
      broadcast_eq hvalid]
  rw [husable, hzero, hgateway, hlast]
  omega

theorem Represents.mem_free {p : Pool 2 ipNet.size} (hp : Represents ipNet st p) :
    i ∈ p.free ↔
      2 ≤ i ∧ i < ipNet.size ∧ (ipNet.addr i).toText ∉ st.allocatedIPs := by
  constructor
  · rintro ⟨hlo, hi, hfree⟩
    rw [hp.taken] at hfree
    exact ⟨hlo, hi, fun hmem => hfree (mem_leased.mpr ⟨hi, hmem⟩)⟩
  · rintro ⟨hlo, hi, hfree⟩
    refine ⟨hlo, hi, ?_⟩
    rw [hp.taken]
    exact fun hmem => hfree (mem_leased.mp hmem).2

theorem givesUsable_allocateIP (hs : Inv s) (name : Text) :
    GivesUsable s (.allocateIP name) ↔ HostLeft s (.allocateIP name) := by
  cases hfind : s.find? name with
  | none =>
    have hgiven : given s (.allocateIP name) = none := by
      cases hallocate : s.allocateIP name with
      | error => simp [given, hallocate]
      | ok =>
        obtain ⟨-, n, st, ipNet, -, hsome, -⟩ := allocateIP_eq_ok hallocate
        rw [hfind] at hsome
        cases hsome
    simp [GivesUsable, hgiven, HostLeft, hfind]
  | some d =>
    obtain ⟨ipNet, hdir⟩ := hs name d hfind
    have hsize := hdir.valid.size_ge
    have hleft : HostLeft s (.allocateIP name) ↔
        (ipNet.addr (ipNet.size - 1)).toText ∈ d.state.allocatedIPs ∨
          ∃ i, 2 ≤ i ∧ i + 1 < ipNet.size ∧ (ipNet.addr i).toText ∉ d.state.allocatedIPs := by
      simp [HostLeft, hfind, hdir.readSubnet, Except.toOption, broadcast_eq hdir.valid]
    rw [hleft]
    obtain ⟨p, hp, ⟨herr, hfull⟩ | ⟨i, hleast, hok⟩⟩ := allocateIP_cases hfind hdir
    · have hlast : ipNet.size - 1 ∉ p.free := by simp [hfull]
      rw [hp.mem_free] at hlast
      have hlisted : (ipNet.addr (ipNet.size - 1)).toText ∈ d.state.allocatedIPs := by
        by_contra hfree
        exact hlast ⟨by omega, by omega, hfree⟩
      simp [GivesUsable, given, herr, hlisted]
    · obtain ⟨hlo, hi, hfree⟩ := hp.mem_free.mp hleast.1
      have hgives : GivesUsable s (.allocateIP name) ↔ 2 ≤ i ∧ i + 1 < ipNet.size := by
        rw [← usableHost_addr hdir hi]
        simp [GivesUsable, given, hok, hfind]
      rw [hgives]
      constructor
      · rintro ⟨-, hlt⟩
        exact .inr ⟨i, hlo, hlt, hfree⟩
      · rintro (hlisted | ⟨j, hj, hjlt, hjfree⟩)
        · -- the last address is listed, so it is not the one handed out
          have hne : i ≠ ipNet.size - 1 := fun heq => hfree (heq ▸ hlisted)
          omega
        · have hle : i ≤ j := hleast.2 (hp.mem_free.mpr ⟨hj, by omega, hjfree⟩)
          omega

theorem networkOrBroadcast_addr (hvalid : ipNet.Valid) (hi : i < ipNet.size) :
    networkOrBroadcast ipNet (ipNet.addr i) = false ↔ 1 ≤ i ∧ i + 1 < ipNet.size := by
  have hsize := hvalid.size_ge
  have heq : ∀ j, j < ipNet.size → (ipNet.addr i = ipNet.addr j ↔ i = j) := by
    intro j hj
    exact ⟨hvalid.addr_injective hi hj, fun h => h ▸ rfl⟩
  have hzero := heq 0 (by omega)
  rw [IPNet.Valid.addr_zero] at hzero
  have hlast := heq (ipNet.size - 1) (by omega)
  simp only [networkOrBroadcast, broadcast_eq hvalid, hzero, hlast]
  simp
  omega

theorem givesUsable_reserveIP (hs : Inv s) (name ip : Text) :
    GivesUsable s (.reserveIP name ip) ↔ HostLeft s (.reserveIP name ip) := by
  constructor
  · intro hgives d hfind a hparse hgateway
    rw [Option.mem_def] at hfind hparse
    by_contra hfree
    -- the gateway is not listed, so the request is accepted
    obtain ⟨ipNet, hdir⟩ := hs name d hfind
    have hsize := hdir.valid.size_ge
    have hname : validateResourceName name = .ok () := name_of_find? hfind ▸ hdir.name
    have ha : a = ipNet.addr 1 := IPv4.toText_injective (hgateway.trans hdir.gateway)
    have hok := reserveIP_eq_ok.mpr ⟨hname, d.network, d.state, a, ipNet, hfind, hparse,
      hdir.readSubnet, ha ▸ hdir.valid.contains_addr (by omega),
      ha ▸ (networkOrBroadcast_addr hdir.valid (by omega)).mpr ⟨by omega, by omega⟩,
      hgateway ▸ hfree, rfl⟩
    have husable : UsableHost d.network a := by
      simpa [GivesUsable, given, hok, hparse, hfind] using hgives
    rw [ha, usableHost_addr hdir (by omega)] at husable
    omega
  · intro hleft g hg
    cases hreserve : s.reserveIP name ip with
    | error =>
      simp [given, hreserve] at hg
    | ok =>
      obtain ⟨-, n, st, a, ipNet, hfind, hparse, hnet, hin, husable, hfree, -⟩ :=
        reserveIP_eq_ok.mp hreserve
      obtain ⟨ipNet', hdir⟩ := hs name _ hfind
      cases hnet.symm.trans hdir.readSubnet
      simp only [given, hreserve, hparse, Option.map_some, Option.mem_def,
        Option.some.injEq] at hg
      subst hg
      obtain ⟨i, hi, rfl⟩ := hdir.valid.exists_addr hin
      rw [networkOrBroadcast_addr hdir.valid hi] at husable
      have hne : i ≠ 1 := by
        rintro rfl
        have hgateway := hdir.gateway.symm
        exact hfree (hgateway ▸ hleft _ hfind _ hparse hgateway)
      exact ⟨_, hfind, (usableHost_addr hdir hi).mpr (by omega)⟩

theorem givesUsable_iff_hostLeft (s : Store) (op : Op) (hs : Inv s) :
    GivesUsable s op ↔ HostLeft s op := by
  cases op with
  | create | releaseIP | prepareRelease | recoverReleases => simp [GivesUsable, given, HostLeft]
  | reserveIP name ip => exact givesUsable_reserveIP hs name ip
  | allocateIP name => exact givesUsable_allocateIP hs name

/-- No history lists an address twice; and the addresses a history hands out
are all usable exactly if none of its requests reaches one of the gaps. -/
theorem usable_hosts_iff (ops : List Op) :
    (∀ name d, (run apply Store.empty ops).find? name = some d → d.state.allocatedIPs.Nodup) ∧
      (AllSteps apply GivesUsable Store.empty ops ↔ AllSteps apply HostLeft Store.empty ops) := by
  constructor
  · intro name d hfind
    obtain ⟨ipNet, hdir⟩ := inv_run ops name d hfind
    exact hdir.leases.nodup
  · exact allSteps_congr inv_apply givesUsable_iff_hostLeft inv_empty ops

/-- The sixth address allocated on a /29 is its broadcast address, and once the
gateway's lease is given back the gateway can be reserved. -/
theorem not_usable_broadcast_gateway :
    ¬AllSteps apply GivesUsable Store.empty (allocations 6) ∧
      ¬AllSteps apply GivesUsable Store.empty
        (allocations 0 ++ [.releaseIP "app".toList "10.0.0.1".toList,
          .reserveIP "app".toList "10.0.0.1".toList]) := by
  decide +kernel

end Jerboa.Net.Allocator
