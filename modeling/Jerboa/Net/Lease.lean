import Jerboa.Net.Allocator

/-!
# Leases and removal intents

What each request of the network store does to the two things the daemon
relies on: which addresses are listed, and which removal intents are recorded.
The lemmas here are all that the proofs about the daemon use of the store.
-/

namespace Jerboa.Net.Store

open List Lib Naming Net.Address Net.Subnet

variable {s s' : Store} {name : Text}

/-- The address `ip` is listed as allocated on the network `name`. -/
def Listed (s : Store) (name ip : Text) : Prop :=
  ∃ d ∈ s.find? name, ip ∈ d.state.allocatedIPs
deriving Decidable

/-- The network `name` records that the VM `owner` is about to give back
`ip`. -/
def Intent (s : Store) (name owner ip : Text) : Prop :=
  ∃ d ∈ s.find? name, ip ∈ d.state.pendingReleases.lookup owner
deriving Decidable

/-- Some VM is about to give back `ip`. -/
def HasIntent (s : Store) (name ip : Text) : Prop :=
  ∃ d ∈ s.find? name, ∃ intent ∈ d.state.pendingReleases.entries, intent.2 = ip
deriving Decidable

theorem Intent.hasIntent {owner ip : Text} (h : Intent s name owner ip) :
    HasIntent s name ip := by
  obtain ⟨d, hd, hlookup⟩ := h
  exact ⟨d, hd, ⟨owner, ip⟩, AList.mem_lookup_iff.mp hlookup, rfl⟩

/-- The address is spelled as `ReserveIP` lists it. -/
def Canonical (ip : Text) : Prop := ∀ a ∈ parseTo4 ip, a.toText = ip
deriving Decidable

variable {d : NetworkDir}

section

variable (hfind : s.find? name = some d)
include hfind

theorem listed_iff (ip : Text) :
    Listed s name ip ↔ ip ∈ d.state.allocatedIPs := by
  simp [Listed, hfind]

theorem intent_iff (owner ip : Text) :
    Intent s name owner ip ↔ d.state.pendingReleases.lookup owner = some ip := by
  simp [Intent, hfind]

theorem find?_writeNetworkState_self (st : NetworkState) :
    (s.writeNetworkState name st).find? name = some { d with state := st } := by
  rw [find?_writeNetworkState, if_pos rfl, hfind]
  rfl

end

theorem find?_writeNetworkState_of_ne {m : Text} (hm : m ≠ name) (st : NetworkState) :
    (s.writeNetworkState name st).find? m = s.find? m := by
  rw [find?_writeNetworkState, if_neg hm]

structure Adds (s s' : Store) (name ip : Text) : Prop where
  fresh : ¬Listed s name ip
  listed : ∀ m t, Listed s' m t ↔ Listed s m t ∨ m = name ∧ t = ip
  intent : ∀ m o t, Intent s' m o t ↔ Intent s m o t

variable {ip : Text}

theorem adds_writeNetworkState (hfind : s.find? name = some d) (hfree : ip ∉ d.state.allocatedIPs)
    (nextIndex : Nat) :
    Adds s (s.writeNetworkState name
      ⟨d.state.allocatedIPs ++ [ip], nextIndex, d.state.pendingReleases⟩) name ip := by
  refine ⟨by rwa [listed_iff hfind], ?_, ?_⟩
  · intro m t
    by_cases hm : m = name
    · subst hm
      rw [listed_iff (find?_writeNetworkState_self hfind _), listed_iff hfind]
      simp
    · simp [Listed, find?_writeNetworkState_of_ne hm, hm]
  · intro m o t
    by_cases hm : m = name
    · subst hm
      rw [intent_iff (find?_writeNetworkState_self hfind _), intent_iff hfind]
    · simp [Intent, find?_writeNetworkState_of_ne hm]

theorem reserveIP_adds (h : s.reserveIP name ip = .ok s') (hspelled : Canonical ip) :
    Adds s s' name ip := by
  obtain ⟨-, n, st, a, ipNet, hfind, hparse, -, -, -, hfree, rfl⟩ := reserveIP_eq_ok.mp h
  rw [hspelled a hparse] at hfree ⊢
  exact adds_writeNetworkState hfind hfree _

theorem notMem_of_search {ipNet : IPNet} {allocated : List Text} {ip : IPv4} {nextIndex : Nat} :
    ∀ {fuel index}, search ipNet allocated fuel index = .found ip nextIndex →
      ip.toText ∉ allocated := by
  intro fuel
  induction fuel with
  | zero =>
    intro index h
    cases h
  | succ fuel ih =>
    intro index h
    unfold search at h
    split at h
    · cases h
    · split_ifs at h with hmem
      · exact ih h
      · cases h
        exact hmem

theorem allocateIP_adds {ip : IPv4} (h : s.allocateIP name = .ok (ip, s')) :
    Adds s s' name ip.toText := by
  obtain ⟨-, n, st, ipNet, nextIndex, hfind, -, hsearch, rfl⟩ := allocateIP_eq_ok h
  exact adds_writeNetworkState hfind (notMem_of_search hsearch) _

/-- `s'` is `s` with the address `ip` of `name` given back, and with it the
intents for it. -/
structure Drops (s s' : Store) (name ip : Text) : Prop where
  listed_of : ∀ m t, Listed s' m t → Listed s m t
  keeps : ∀ m t, Listed s m t → ¬(m = name ∧ t = ip) → Listed s' m t
  intent_of : ∀ m o t, Intent s' m o t → Intent s m o t
  forgets : ∀ o, Intent s' name o ip → ¬Listed s name ip

theorem lookup_dropReleases (pending : AList fun _ : Text => Text) (ip owner t : Text) :
    (dropReleases pending ip).lookup owner = some t ↔
      pending.lookup owner = some t ∧ t ≠ ip := by
  simp only [← Option.mem_def, AList.mem_lookup_iff, dropReleases, mem_filter,
    decide_eq_true_eq]

theorem releaseIP_drops (h : s.releaseIP name ip = .ok s') : Drops s s' name ip := by
  obtain ⟨-, d, hfind, rfl⟩ := releaseIP_eq_ok.mp h
  have hself := find?_writeNetworkState_self hfind (releaseState d.state ip)
  refine ⟨?_, ?_, ?_, ?_⟩
  · intro m t ht
    by_cases hm : m = name
    · subst hm
      rw [listed_iff hself, releaseState] at ht
      rw [listed_iff hfind]
      split_ifs at ht
      · exact mem_of_mem_erase ht
      · exact ht
    · simpa [Listed, find?_writeNetworkState_of_ne hm] using ht
  · intro m t ht hne
    by_cases hm : m = name
    · subst hm
      rw [listed_iff hfind] at ht
      rw [listed_iff hself, releaseState]
      split_ifs
      · exact (mem_erase_of_ne fun heq => hne ⟨rfl, heq⟩).mpr ht
      · exact ht
    · simpa [Listed, find?_writeNetworkState_of_ne hm] using ht
  · intro m o t ht
    by_cases hm : m = name
    · subst hm
      rw [intent_iff hself, releaseState] at ht
      rw [intent_iff hfind]
      split_ifs at ht
      · exact ((lookup_dropReleases _ _ _ _).mp ht).1
      · exact ht
    · simpa [Intent, find?_writeNetworkState_of_ne hm] using ht
  · intro o ho hlisted
    rw [listed_iff hfind] at hlisted
    rw [intent_iff hself, releaseState, if_pos hlisted] at ho
    exact ((lookup_dropReleases _ _ _ _).mp ho).2 rfl

theorem not_listed_of_releaseIP (hinv : Allocator.Inv s) (h : s.releaseIP name ip = .ok s') :
    ¬Listed s' name ip := by
  obtain ⟨-, d, hfind, rfl⟩ := releaseIP_eq_ok.mp h
  obtain ⟨ipNet, hdir⟩ := hinv name d hfind
  rw [listed_iff (find?_writeNetworkState_self hfind _), releaseState]
  split_ifs with hmem
  · exact hdir.leases.nodup.not_mem_erase
  · exact hmem

/-- `s'` is `s` with the intent of `owner` to give back `ip`, if it is listed. -/
structure Prepares (s s' : Store) (name owner ip : Text) : Prop where
  listed : ∀ m t, Listed s' m t ↔ Listed s m t
  intent_of : ∀ m o t, Intent s' m o t →
    Intent s m o t ∨ m = name ∧ o = owner ∧ t = ip ∧ Listed s name ip
  records : Listed s name ip → Intent s' name owner ip

theorem prepareRelease_prepares {owner ip : Text}
    (h : s.prepareRelease name owner ip = .ok s') : Prepares s s' name owner ip := by
  obtain ⟨-, d, hfind, rfl⟩ := prepareRelease_eq_ok.mp h
  have hself := find?_writeNetworkState_self hfind (prepareState d.state owner ip)
  have halloc : (prepareState d.state owner ip).allocatedIPs = d.state.allocatedIPs := by
    unfold prepareState
    split_ifs <;> rfl
  refine ⟨?_, ?_, ?_⟩
  · intro m t
    by_cases hm : m = name
    · subst hm
      rw [listed_iff hself, halloc, listed_iff hfind]
    · simp [Listed, find?_writeNetworkState_of_ne hm]
  · intro m o t ht
    by_cases hm : m = name
    · subst hm
      rw [intent_iff hself, prepareState] at ht
      rw [intent_iff hfind, listed_iff hfind]
      split_ifs at ht with hmem
      · by_cases ho : o = owner
        · subst ho
          rw [AList.lookup_insert, Option.some.injEq] at ht
          exact .inr ⟨rfl, rfl, ht.symm, hmem⟩
        · rw [AList.lookup_insert_ne ho] at ht
          exact .inl ht
      · exact .inl ht
    · exact .inl (by simpa [Intent, find?_writeNetworkState_of_ne hm] using ht)
  · intro hlisted
    rw [listed_iff hfind] at hlisted
    rw [intent_iff hself, prepareState, if_pos hlisted, AList.lookup_insert]

/-! ## Recovery -/

/-- The order in which two intents are recovered does not matter: `range` over
a Go map may take either first. -/
instance recoverRelease_rightCommutative (live : Text → Bool) :
    RightCommutative (recoverRelease live) where
  right_comm st a b := by
    have hmem : ∀ {x y : Text}, x ≠ y →
        (x ∈ st.allocatedIPs.erase y ↔ x ∈ st.allocatedIPs) := mem_erase_of_ne
    by_cases heq : a.2 = b.2
    · unfold recoverRelease
      rw [heq]
      split_ifs <;> rfl
    · have hab := hmem heq
      have hba := hmem (Ne.symm heq)
      unfold recoverRelease
      cases live a.1 <;> cases live b.1 <;> by_cases ha : a.2 ∈ st.allocatedIPs <;>
        by_cases hb : b.2 ∈ st.allocatedIPs <;>
        simp [ha, hb, hab, hba, erase_comm a.2 b.2]

variable {live : Text → Bool}

theorem recoverState_perm {st : NetworkState} {pending : AList fun _ : Text => Text}
    (hperm : st.pendingReleases.entries.Perm pending.entries) :
    recoverState live st = recoverState live { st with pendingReleases := pending } := by
  have hignore : ∀ (intents : List (Sigma fun _ : Text => Text)) (st : NetworkState)
      (pending : AList fun _ : Text => Text),
      { intents.foldl (recoverRelease live) { st with pendingReleases := pending } with
          pendingReleases := ∅ } =
        { intents.foldl (recoverRelease live) st with pendingReleases := ∅ } := by
    intro intents
    induction intents with
    | nil => exact fun _ _ => rfl
    | cons intent intents ih =>
      intro st pending
      have hstep : recoverRelease live { st with pendingReleases := pending } intent =
          { recoverRelease live st intent with pendingReleases := pending } := by
        unfold recoverRelease
        split_ifs <;> rfl
      rw [foldl_cons, hstep, ih, foldl_cons]
  unfold recoverState
  rw [hperm.foldl_eq]
  exact (hignore _ st pending).symm

/-- Recovery does not depend on the order in which the map yields the intents, and once it is
done another one, whoever is registered then, changes nothing. -/
theorem recovery_settles (live live' : Text → Bool) :
    (∀ s : Store, (s.recoverReleases live).recoverReleases live' = s.recoverReleases live) ∧
      ∀ (st : NetworkState) (pending : AList fun _ : Text => Text),
        st.pendingReleases.entries.Perm pending.entries →
        recoverState live st = recoverState live { st with pendingReleases := pending } := by
  refine ⟨fun s => ?_, fun st pending hperm => recoverState_perm hperm⟩
  rw [recoverReleases, recoverReleases, map_map]
  rfl

def deadReleases (live : Text → Bool) (st : NetworkState) : List Text :=
  (st.pendingReleases.entries.filter fun intent => !live intent.1).map Sigma.snd

theorem allocatedIPs_recoverState (live : Text → Bool) (st : NetworkState) :
    (recoverState live st).allocatedIPs = st.allocatedIPs.diff (deadReleases live st) := by
  have hfold : ∀ (intents : List (Sigma fun _ : Text => Text)) (st : NetworkState),
      (intents.foldl (recoverRelease live) st).allocatedIPs =
        st.allocatedIPs.diff ((intents.filter fun intent => !live intent.1).map Sigma.snd) := by
    intro intents
    induction intents with
    | nil => exact fun _ => rfl
    | cons intent intents ih =>
      intro st
      rw [foldl_cons, ih, recoverRelease]
      split_ifs with hlive hmem
      · simp [hlive]
      · simp [hlive]
      · simp [hlive, erase_of_not_mem hmem]
  exact hfold _ st

theorem mem_deadReleases {st : NetworkState} :
    ip ∈ deadReleases live st ↔
      ∃ owner, st.pendingReleases.lookup owner = some ip ∧ live owner = false := by
  simp only [deadReleases, mem_map, mem_filter, ← Option.mem_def,
    AList.mem_lookup_iff, Bool.not_eq_true']
  constructor
  · rintro ⟨⟨owner, t⟩, ⟨hmem, hlive⟩, rfl⟩
    exact ⟨owner, hmem, hlive⟩
  · rintro ⟨owner, hmem, hlive⟩
    exact ⟨⟨owner, ip⟩, ⟨hmem, hlive⟩, rfl⟩

theorem listed_of_recoverReleases (h : Listed (s.recoverReleases live) name ip) :
    Listed s name ip := by
  obtain ⟨d, hd, hmem⟩ := h
  rw [Option.mem_def, find?_recoverReleases] at hd
  obtain ⟨e, he, rfl⟩ := Option.map_eq_some_iff.mp hd
  refine ⟨e, he, ?_⟩
  rw [allocatedIPs_recoverState] at hmem
  exact diff_subset _ _ hmem

theorem listed_recoverReleases (h : Listed s name ip)
    (hlive : ∀ owner, Intent s name owner ip → live owner = true) :
    Listed (s.recoverReleases live) name ip := by
  obtain ⟨d, hd, hmem⟩ := h
  refine ⟨_, by rw [Option.mem_def, find?_recoverReleases, hd]; rfl, ?_⟩
  rw [allocatedIPs_recoverState]
  refine mem_diff_of_mem hmem fun hdead => ?_
  obtain ⟨owner, howner, hnot⟩ := mem_deadReleases.mp hdead
  rw [hlive owner ⟨d, hd, howner⟩] at hnot
  cases hnot

theorem not_listed_recoverReleases (hinv : Allocator.Inv s) {owner ip : Text}
    (h : Intent s name owner ip) (hlive : live owner = false) :
    ¬Listed (s.recoverReleases live) name ip := by
  obtain ⟨d, hd, howner⟩ := h
  obtain ⟨ipNet, hdir⟩ := hinv name d hd
  rintro ⟨e, he, hmem⟩
  rw [Option.mem_def, find?_recoverReleases, hd] at he
  cases he
  have hdead : ip ∈ deadReleases live d.state := mem_deadReleases.mpr ⟨owner, howner, hlive⟩
  rw [allocatedIPs_recoverState] at hmem
  exact (hdir.leases.nodup.mem_sdiff_iff.mp hmem).2 hdead

theorem not_intent_recoverReleases (live : Text → Bool) (name owner ip : Text) :
    ¬Intent (s.recoverReleases live) name owner ip := by
  rintro ⟨d, hd, howner⟩
  rw [Option.mem_def, find?_recoverReleases] at hd
  obtain ⟨e, -, rfl⟩ := Option.map_eq_some_iff.mp hd
  simp [recoverState] at howner

variable {subnet driver : Text} {host : Host} {n : Network}

section

variable (h : s.create host name subnet driver = .ok (n, s'))
include h

theorem find?_create :
    s.find? name = none ∧ (∃ ipNet, s'.find? name = some ⟨n, initialState (firstHost ipNet)⟩) ∧
      ∀ m, m ≠ name → s'.find? m = s.find? m := by
  obtain ⟨-, hnew, ipNet, -, rfl, -, -, rfl⟩ := create_eq_ok h
  have hfind := find?_insertDir ⟨n, initialState (firstHost ipNet)⟩ s.dirs hnew
  refine ⟨hnew, ⟨ipNet, ?_⟩, fun m hm => ?_⟩
  · rw [hfind, if_pos rfl]
  · rw [hfind, if_neg hm]

theorem listed_create {m ip : Text}
    (hlisted : Listed s m ip) :
    Listed s' m ip := by
  obtain ⟨hnew, -, hother⟩ := find?_create h
  obtain ⟨d, hd, hmem⟩ := hlisted
  have hm : m ≠ name := by
    rintro rfl
    rw [Option.mem_def, hnew] at hd
    cases hd
  exact ⟨d, by rwa [hother m hm], hmem⟩

theorem intent_create {m owner ip : Text}
    (hintent : Intent s' m owner ip) : Intent s m owner ip := by
  obtain ⟨-, ⟨ipNet, hself⟩, hother⟩ := find?_create h
  obtain ⟨d, hd, howner⟩ := hintent
  by_cases hm : m = name
  · rw [hm, Option.mem_def, hself] at hd
    cases hd
    simp [initialState] at howner
  · exact ⟨d, by rwa [← hother m hm], howner⟩

end

theorem find?_remove (h : s.remove name = .ok s') (m : Text) :
    s'.find? m = if m = name then none else s.find? m := by
  simp only [remove, bind_eq_ok, pure_eq_ok] at h
  obtain ⟨-, -, rfl⟩ := h
  exact find?_filter_ne s name m

theorem inv_remove (hinv : Allocator.Inv s) (h : s.remove name = .ok s') : Allocator.Inv s' := by
  intro m d hd
  rw [find?_remove h] at hd
  split_ifs at hd
  exact hinv m d hd

theorem find?_of_releaseIP_error (hinv : Allocator.Inv s) {err : StoreErr}
    (h : s.releaseIP name ip = .error err) : s.find? name = none := by
  cases hfind : s.find? name with
  | none => rfl
  | some d =>
    obtain ⟨ipNet, hdir⟩ := hinv name d hfind
    have hname : validateResourceName name = .ok () := name_of_find? hfind ▸ hdir.name
    rw [releaseIP_eq_ok.mpr ⟨hname, d, hfind, rfl⟩] at h
    cases h

theorem listed_ne_nil (hinv : Allocator.Inv s) (h : Listed s name ip) : name ≠ [] := by
  rintro rfl
  obtain ⟨d, hd, -⟩ := h
  obtain ⟨ipNet, hdir⟩ := hinv _ d hd
  have hname := hdir.name
  rw [name_of_find? hd] at hname
  cases hname

theorem not_listed_of_find? (hfind : s.find? name = none) (ip : Text) : ¬Listed s name ip := by
  rintro ⟨d, hd, -⟩
  rw [Option.mem_def, hfind] at hd
  cases hd

end Jerboa.Net.Store
