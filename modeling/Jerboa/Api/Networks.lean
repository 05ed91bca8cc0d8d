import Jerboa.Api.Server

/-!
# Running VMs and the networks under them

Network.Remove runs outside the resource lock and looks only for running VMs,
and VM.Start and the automatic restart reuse the address in the old VM's
configuration.  So two running VMs can come to have one address, and a VM can
run with an address outside its network's subnet.  Neither happens in a run in
which VM.Start and the automatic restart launch only VMs whose address is still
listed and not in use (the restart, which takes no lock, also not while VM.Run
or VM.Remove is at work on the address), and Network.Remove does not take away
a network from under a VM that is starting or running, or from under a VM.Run
that has taken an address on it.
-/

namespace Jerboa.Api.Networks

open Lib.Run Net Net.Address Net.Store Net.Subnet Api.Server Registry

/-- No two VMs that are starting or running on one network have the same
address. -/
def Distinct (sv : Server) : Prop :=
  ∀ v ∈ sv.vms, ∀ w ∈ sv.vms, v.state.active = true → w.state.active = true →
    v.cfg.networkName ≠ [] → v.cfg.networkName = w.cfg.networkName →
    v.cfg.ipAddress = w.cfg.ipAddress → v = w
deriving Decidable

/-- A VM that is starting or running has an address of the subnet registered
under its network's name. -/
def Inside (sv : Server) : Prop :=
  ∀ v ∈ sv.vms, v.state.active = true → v.cfg.networkName ≠ [] →
    ∃ d ∈ sv.netStore.find? v.cfg.networkName, ∃ ipNet ∈ (readSubnet d.network).toOption,
      ∃ a ∈ parseTo4 v.cfg.ipAddress, ipNet.contains a = true
deriving Decidable

/-- The VM is starting or running on the network `net` with the address `ip`. -/
def Uses (v : VM) (net ip : Text) : Prop :=
  net ≠ [] ∧ v.state.active = true ∧ v.cfg.networkName = net ∧ v.cfg.ipAddress = ip
deriving Decidable

def UsedOnlyBy (ids : List Text) (vms : Registry) (net ip : Text) : Prop :=
  ∀ v ∈ vms, Uses v net ip → v.id ∈ ids
deriving Decidable

def Ready (sv : Server) (v : VM) : Prop :=
  v.cfg.networkName ≠ [] →
    Listed sv.netStore v.cfg.networkName v.cfg.ipAddress ∧
      UsedOnlyBy [v.id] sv.vms v.cfg.networkName v.cfg.ipAddress
deriving Decidable

def startsAgain : Task → Option Text
  | .begin .inPlace id => some id
  | .begin (.replace _) id => some id
  | _ => none

/-- The network of a VM.Run that has taken its address and not yet launched
the VM. -/
def runUnderWay : Task → Option Text
  | .create cfg _ => some cfg.networkName
  | .begin (.run net _) _ => some net
  | _ => none

/-- The address that a VM.Run or a VM.Remove is at work on. -/
def address : Task → Option (Text × Text)
  | .create cfg assigned => some (cfg.networkName, assigned)
  | .begin (.run net assigned) _ => some (net, assigned)
  | .launch (.run net assigned) _ => some (net, assigned)
  | .publish (.run net assigned) _ => some (net, assigned)
  | .cleanup (.run net assigned) _ => some (net, assigned)
  | .lookup v _ => some (v.cfg.networkName, v.cfg.ipAddress)
  | .prepare v => some (v.cfg.networkName, v.cfg.ipAddress)
  | .delete v _ => some (v.cfg.networkName, v.cfg.ipAddress)
  | .release v => some (v.cfg.networkName, v.cfg.ipAddress)
  | .rollback net ip => some (net, ip)
  | _ => none

/-- `restartVM` launches a VM only if its address is its own and no VM.Run or
VM.Remove is at work on it. -/
def RestartReady (sv : Server) (a : Answer) : Restart → Prop
  | .begin _ id => a.ok = true → ∀ v ∈ sv.vms.get id, Ready sv v ∧
    ∀ t ∈ sv.task, v.cfg.networkName ≠ [] →
      address t ≠ some (v.cfg.networkName, v.cfg.ipAddress)
  | _ => True

/-- The condition on a step: addresses are spelled as they are listed, VM.Start
and `restartVM` launch a VM only if its address is still its own, and a network
is removed only if no VM on it is starting, running or being run. -/
def NetworksInPlace (sv : Server) : Action → Prop
  | .task a =>
    (∀ t ∈ sv.task, SpelledTask sv.netStore t) ∧
      ∀ t ∈ sv.task, a.ok = true → ∀ id ∈ startsAgain t, ∀ v ∈ sv.vms.get id, Ready sv v
  | .restartVM i a => ∀ r ∈ sv.restarts[i]?, RestartReady sv a r
  | .networkRemoved name =>
    name ∈ sv.removals →
      (∀ v ∈ sv.vms, v.cfg.networkName = name → v.state.active = false) ∧
        ∀ t ∈ sv.task, runUnderWay t ≠ some name
  | _ => True

instance (sv : Server) (a : Answer) : ∀ r, Decidable (RestartReady sv a r)
  | .begin _ _ => inferInstanceAs (Decidable (_ → ∀ v ∈ _, _ ∧ ∀ t ∈ _, _ → _))
  | .wait _ _ | .launch _ _ | .publish _ _ | .drop _ _ => .isTrue trivial

instance (sv : Server) : ∀ act, Decidable (NetworksInPlace sv act)
  | .task _ => inferInstanceAs (Decidable ((∀ t ∈ _, _) ∧ ∀ t ∈ _, _ → ∀ id ∈ _, ∀ v ∈ _, _))
  | .restartVM _ _ => inferInstanceAs (Decidable (∀ r ∈ _, _))
  | .networkRemoved _ => inferInstanceAs (Decidable (_ → (∀ v ∈ _, _ → _) ∧ ∀ t ∈ _, _))
  | .run _ | .start _ | .remove _ | .stop _ | .exited _ _ | .restart _ => .isTrue trivial
  | .networkCreate _ _ _ _ | .networkAllocateIP _ | .networkRemove _ => .isTrue trivial

/-- Every action but a restart of the daemon. -/
def NoRestart : Action → Prop
  | .restart _ => False
  | _ => True

/-! ## The invariant -/

section Predicates

variable (s : Store) (vms : Registry)

def CallerInv (id : Text) : Caller → Prop
  | .run net assigned => UsedOnlyBy [id] vms net assigned
  | _ => True

def TaskInv : Task → Prop
  | .lease p _ => p.networkName ≠ []
  | .create cfg assigned =>
    UsedOnlyBy [] vms cfg.networkName assigned ∧
      (cfg.networkName ≠ [] → assigned = cfg.ipAddress ∧ Listed s cfg.networkName assigned)
  | .begin (.run net assigned) id =>
    UsedOnlyBy [id] vms net assigned ∧ ∀ v ∈ vms, v.id = id → v.cfg.networkName ≠ [] →
      v.cfg.networkName = net ∧ v.cfg.ipAddress = assigned ∧ Listed s net assigned
  | .launch c id => CallerInv vms id c
  | .publish c id => CallerInv vms id c
  | .cleanup c id => CallerInv vms id c
  | .lookup v shared =>
    shared = false → UsedOnlyBy [v.id] vms v.cfg.networkName v.cfg.ipAddress
  | .prepare v => UsedOnlyBy [v.id] vms v.cfg.networkName v.cfg.ipAddress
  | .delete v release =>
    release = true → UsedOnlyBy [v.id] vms v.cfg.networkName v.cfg.ipAddress
  | .release v => UsedOnlyBy [] vms v.cfg.networkName v.cfg.ipAddress
  | .rollback net ip => UsedOnlyBy [] vms net ip
  | _ => True

structure Core : Prop where
  listed : ∀ v ∈ vms, ∀ net ip, Uses v net ip → Listed s net ip
  distinct : ∀ v ∈ vms, ∀ net ip, Uses v net ip → UsedOnlyBy [v.id] vms net ip
  unique : ∀ v ∈ vms, ∀ w ∈ vms, v.id = w.id → v = w
  noRestore : ∀ v ∈ vms, v.state ≠ .restoring

end Predicates

structure Inv (sv : Server) : Prop where
  core : Core sv.netStore sv.vms
  task : ∀ t ∈ sv.task, TaskInv sv.netStore sv.vms t

/-- Whoever uses an address in `vms'` uses it in `vms`. -/
def Calmer (vms' vms : Registry) : Prop :=
  ∀ v' ∈ vms', ∀ net ip, Uses v' net ip → ∃ v ∈ vms, v.id = v'.id ∧ Uses v net ip

variable {sv sv' : Server} {s s' : Store} {vms vms' : Registry} {net ip id : Text} {t : Task}
  {ids : List Text} {state : State} {cfg : Config} {v : VM} {a : Answer}

theorem UsedOnlyBy.calmer (h : Calmer vms' vms) (hused : UsedOnlyBy ids vms net ip) :
    UsedOnlyBy ids vms' net ip := by
  intro v' hv' huses
  obtain ⟨v, hv, hid, huses⟩ := h v' hv' net ip huses
  exact hid ▸ hused v hv huses

theorem UsedOnlyBy.unregister (h : UsedOnlyBy [id] vms net ip) :
    UsedOnlyBy [] (vms.unregister id) net ip := by
  intro v hv huses
  obtain ⟨hmem, hid⟩ := mem_unregister.mp hv
  exact absurd (List.mem_singleton.mp (h v hmem huses)) hid

theorem Core.calmer (h : Core s vms) (hcalmer : Calmer vms' vms)
    (hunique : ∀ v ∈ vms', ∀ w ∈ vms', v.id = w.id → v = w)
    (hrestore : ∀ v ∈ vms', v.state ≠ .restoring) : Core s vms' := by
  refine ⟨?_, ?_, hunique, hrestore⟩
  · intro v' hv' net ip huses
    obtain ⟨v, hv, -, huses⟩ := hcalmer v' hv' net ip huses
    exact h.listed v hv net ip huses
  · intro v' hv' net ip huses
    obtain ⟨v, hv, hid, huses⟩ := hcalmer v' hv' net ip huses
    exact hid ▸ (h.distinct v hv net ip huses).calmer hcalmer

/-- The VMs change beside a request: the address it is at work on gets no new
user, and its VMs no new configuration. -/
theorem TaskInv.beside (h : TaskInv s vms t)
    (huses : ∀ net ip, address t = some (net, ip) → ∀ v' ∈ vms', Uses v' net ip →
      ∃ v ∈ vms, v.id = v'.id ∧ Uses v net ip)
    (hsame : ∀ v' ∈ vms', v'.id ∈ t.vms → ∃ v ∈ vms, v.id = v'.id ∧ v.cfg = v'.cfg) :
    TaskInv s vms' t := by
  have hused : ∀ {ids net ip}, address t = some (net, ip) → UsedOnlyBy ids vms net ip →
      UsedOnlyBy ids vms' net ip := by
    intro ids net ip haddress hused v' hv' huses'
    obtain ⟨v, hv, hid, huses⟩ := huses net ip haddress v' hv' huses'
    exact hid ▸ hused v hv huses
  cases t with
  | lease => exact h
  | create => exact ⟨hused rfl h.1, h.2⟩
  | replace | dropOld => trivial
  | begin c id =>
    cases c with
    | run =>
      refine ⟨hused rfl h.1, fun v' hv' hid => ?_⟩
      obtain ⟨v, hv, hvid, hcfg⟩ := hsame v' hv' (by simp [Task.vms, hid])
      rw [← hcfg]
      exact h.2 v hv (hvid.trans hid)
    | inPlace | replace => trivial
  | launch c | publish c | cleanup c =>
    cases c with
    | run => exact hused rfl h
    | inPlace | replace => trivial
  | lookup | delete => exact fun heq => hused rfl (h heq)
  | prepare | release | rollback => exact hused rfl h

/-! ## The registry changes -/

theorem calmer_unregister (vms : Registry) (id : Text) : Calmer (vms.unregister id) vms :=
  fun v hv _ _ huses => ⟨v, (mem_unregister.mp hv).1, rfl, huses⟩

theorem calmer_create (vms : Registry) (id : Text) (cfg : Config) :
    Calmer (vms.create id cfg) vms := by
  intro v hv net ip huses
  rcases mem_create.mp hv with hv | rfl
  · exact ⟨v, hv, rfl, huses⟩
  · cases huses.2.1

theorem calmer_setState (h : ∀ v ∈ vms, v.id = id → state.active = true → v.state.active = true) :
    Calmer (vms.setState id state) vms := by
  intro v' hv' net ip huses
  obtain ⟨v, hv, rfl⟩ := mem_setState.mp hv'
  split_ifs at huses ⊢ with hid
  · exact ⟨v, hv, rfl, huses.1, h v hv hid huses.2.1, huses.2.2⟩
  · exact ⟨v, hv, rfl, huses⟩

theorem same_setState (hv : v ∈ vms.setState id state) :
    ∃ w ∈ vms, w.id = v.id ∧ w.cfg = v.cfg := by
  obtain ⟨w, hw, rfl⟩ := mem_setState.mp hv
  refine ⟨w, hw, ?_⟩
  split_ifs <;> exact ⟨rfl, rfl⟩

section

variable (h : Core s vms)
include h

theorem Core.unregister (id : Text) : Core s (vms.unregister id) :=
  h.calmer (calmer_unregister vms id)
    (fun v hv w hw => h.unique v (mem_unregister.mp hv).1 w (mem_unregister.mp hw).1)
    fun v hv => h.noRestore v (mem_unregister.mp hv).1

theorem Core.create (cfg : Config) (hnew : vms.has id = false) : Core s (vms.create id cfg) := by
  have hfresh : ∀ v ∈ vms, v.id ≠ id := fun v hv hid =>
    not_holds_of_has hnew v.cfg ⟨v, hv, hid, rfl⟩
  refine h.calmer (calmer_create vms id cfg) ?_ ?_
  · intro v hv w hw hid
    rcases mem_create.mp hv with hv | rfl
    · rcases mem_create.mp hw with hw | rfl
      · exact h.unique v hv w hw hid
      · exact absurd hid (hfresh v hv)
    · rcases mem_create.mp hw with hw | rfl
      · exact absurd hid.symm (hfresh w hw)
      · rfl
  · intro v hv
    rcases mem_create.mp hv with hv | rfl
    · exact h.noRestore v hv
    · simp

theorem unique_setState :
    ∀ v ∈ vms.setState id state, ∀ w ∈ vms.setState id state, v.id = w.id → v = w := by
  intro v' hv' w' hw' hid
  obtain ⟨v, hv, rfl⟩ := mem_setState.mp hv'
  obtain ⟨w, hw, rfl⟩ := mem_setState.mp hw'
  have hsame : ∀ u : VM, (if u.id = id then { u with state := state } else u).id = u.id := by
    intro u
    split_ifs <;> rfl
  rw [hsame, hsame] at hid
  rw [h.unique v hv w hw hid]

theorem noRestore_setState (hstate : state ≠ .restoring) :
    ∀ v ∈ vms.setState id state, v.state ≠ .restoring := by
  intro v' hv'
  obtain ⟨v, hv, rfl⟩ := mem_setState.mp hv'
  split_ifs
  · exact hstate
  · exact h.noRestore v hv

theorem Core.setState (hstate : state ≠ .restoring)
    (hactive : ∀ v ∈ vms, v.id = id → state.active = true → v.state.active = true) :
    Core s (vms.setState id state) :=
  h.calmer (calmer_setState hactive) (unique_setState h) (noRestore_setState h hstate)

/-- The users of an address are those that were, and the VM that starts. -/
theorem uses_start {w : VM} (hv : v ∈ vms) (hw : w ∈ vms.setState v.id .starting)
    (huses : Uses w net ip) :
    w.id = v.id ∧ net ≠ [] ∧ v.cfg.networkName = net ∧ v.cfg.ipAddress = ip ∨
      ∃ u ∈ vms, u.id = w.id ∧ Uses u net ip := by
  obtain ⟨u, hu, rfl⟩ := mem_setState.mp hw
  split_ifs at huses ⊢ with hid
  · cases h.unique u hu v hv hid
    exact .inl ⟨rfl, huses.1, huses.2.2⟩
  · exact .inr ⟨u, hu, rfl, huses⟩

theorem UsedOnlyBy.start (hv : v ∈ vms) (hused : UsedOnlyBy [v.id] vms net ip) :
    UsedOnlyBy [v.id] (vms.setState v.id .starting) net ip := by
  intro w hw huses
  rcases uses_start h hv hw huses with ⟨hid, -⟩ | ⟨u, hu, hid, huses⟩
  · simp [hid]
  · exact hid ▸ hused u hu huses

theorem running_of_starting (hv : v ∈ vms) (hvalid : .running ∈ validTransitions v.state) :
    ∀ w ∈ vms, w.id = v.id → State.running.active = true → w.state.active = true := by
  intro w hw hid _
  rw [h.unique w hw v hv hid]
  have hrestore := h.noRestore v hv
  revert hvalid hrestore
  cases v.state <;> simp [validTransitions, State.active]

end

theorem Core.start (h : Core sv.netStore sv.vms) (hv : v ∈ sv.vms) (hready : Ready sv v) :
    Core sv.netStore (sv.vms.setState v.id .starting) := by
  refine ⟨?_, ?_, unique_setState h, noRestore_setState h (by simp)⟩
  · intro w hw net ip huses
    rcases uses_start h hv hw huses with ⟨-, hnet, rfl, rfl⟩ | ⟨u, hu, -, huses⟩
    · exact (hready hnet).1
    · exact h.listed u hu net ip huses
  · intro w hw net ip huses
    rcases uses_start h hv hw huses with ⟨hid, hnet, rfl, rfl⟩ | ⟨u, hu, hid, huses⟩
    · rw [hid]
      exact (hready hnet).2.start h hv
    · intro w' hw' huses'
      rcases uses_start h hv hw' huses' with ⟨hid', hnet, rfl, rfl⟩ | ⟨u', hu', hid', huses'⟩
      · -- whoever used the address of `v` is `v`
        have hsame := List.mem_singleton.mp ((hready hnet).2 u hu huses)
        rw [hid', ← hid, hsame]
        exact List.mem_singleton_self _
      · rw [← hid', ← hid]
        exact h.distinct u hu net ip huses u' hu' huses'

theorem Core.netStore (h : Core s vms)
    (hlisted : ∀ v ∈ vms, ∀ net ip, Uses v net ip → Listed s net ip → Listed s' net ip) :
    Core s' vms :=
  ⟨fun v hv net ip huses => hlisted v hv net ip huses (h.listed v hv net ip huses), h.distinct,
    h.unique, h.noRestore⟩

theorem TaskInv.netStore (h : TaskInv s vms t)
    (hlisted : ∀ net ip, runUnderWay t = some net → Listed s net ip → Listed s' net ip) :
    TaskInv s' vms t := by
  cases t with
  | create =>
    exact ⟨h.1, fun hnet => ⟨(h.2 hnet).1, hlisted _ _ rfl (h.2 hnet).2⟩⟩
  | begin c =>
    cases c with
    | run =>
      refine ⟨h.1, fun v hv hid hname => ?_⟩
      obtain ⟨hnet, hip, hl⟩ := h.2 v hv hid hname
      exact ⟨hnet, hip, hlisted _ _ rfl hl⟩
    | inPlace | replace => trivial
  | _ => exact h

/-! ## One step -/

theorem inv_done (h : Core sv.netStore sv.vms) : Inv sv.done :=
  ⟨h, by simp [done]⟩

theorem inv_next (h : Core sv.netStore sv.vms) (ht : TaskInv sv.netStore sv.vms t) :
    Inv (sv.next t) := by
  refine ⟨h, ?_⟩
  rintro _ ⟨⟩
  exact ht

section

variable (h : Core sv.netStore sv.vms)
include h

theorem inv_leased {p : RunParams} {n : Network} (hadds : Adds sv.netStore s' p.networkName ip) :
    Inv ({ sv with netStore := s' }.next (.create (p.config n ip) ip)) := by
  refine inv_next (h.netStore fun v _ _ _ _ hl => (hadds.listed _ _).mpr (.inl hl))
    ⟨fun v hv huses => ?_, fun _ => ⟨rfl, (hadds.listed _ _).mpr (.inr ⟨rfl, rfl⟩)⟩⟩
  -- the address was not listed before, so no VM is running with it
  exact absurd (h.listed v hv _ _ huses) hadds.fresh

theorem inv_created {assigned : Text} (ht : TaskInv sv.netStore sv.vms (.create cfg assigned))
    (hnew : sv.vms.has id = false) :
    Inv ({ sv with vms := sv.vms.create id cfg }.next
      (.begin (.run cfg.networkName assigned) id)) := by
  refine inv_next (h.create cfg hnew) ⟨fun v hv huses => ?_, fun v hv hid hnet => ?_⟩
  · cases ht.1.calmer (calmer_create sv.vms id cfg) v hv huses
  · rcases mem_create.mp hv with hv | rfl
    · exact absurd ⟨v, hv, hid, rfl⟩ (not_holds_of_has hnew v.cfg)
    · exact ⟨rfl, (ht.2 hnet).1.symm, (ht.2 hnet).2⟩

theorem inv_began {c : Caller} (ht : TaskInv sv.netStore sv.vms (.begin c v.id)) (hv : v ∈ sv.vms)
    (hready : ∀ id ∈ startsAgain (.begin c v.id), Ready sv v) :
    Inv ({ sv with vms := sv.vms.setState v.id .starting }.next (.launch c v.id)) := by
  cases c with
  | run net assigned =>
    refine inv_next (h.start hv fun hnet => ?_) (ht.1.start h hv)
    obtain ⟨hsameNet, hsameIP, hlisted⟩ := ht.2 v hv rfl hnet
    rw [hsameNet, hsameIP]
    exact ⟨hlisted, ht.1⟩
  | inPlace | replace => exact inv_next (h.start hv (hready _ rfl)) trivial

theorem inv_turn (ht : TaskInv sv.netStore sv.vms t) (hspelled : SpelledTask sv.netStore t)
    (hready : a.ok = true → ∀ id ∈ startsAgain t, ∀ v ∈ sv.vms.get id, Ready sv v)
    (hturn : Turn sv a t sv') : Inv sv' := by
  cases hturn with
  | stop | networkGone => exact inv_done h
  | leased _ _ hadds => exact inv_leased h (hadds hspelled)
  | created hfresh => exact inv_created h ht (has_of_fresh hfresh)
  | notCreated => exact inv_next h ht.1
  | replaced _ hfresh => exact inv_next (h.create _ (has_of_fresh hfresh)) trivial
  | @began c v hok hget =>
    refine inv_began h ht (mem_of_get hget).1 fun id hid => hready hok id hid v ?_
    cases c with
    | run => cases hid
    | inPlace | replace => cases hid; exact hget
  | @launched c v hv hvalid =>
    have hactive := running_of_starting h hv hvalid
    refine inv_next (h.setState (by simp) hactive) ?_
    cases c with
    | run => exact UsedOnlyBy.calmer (calmer_setState hactive) ht
    | inPlace | replace => trivial
  | started => exact inv_next h trivial
  | @notStarted _ c _ _ htask =>
    refine inv_next h ?_
    cases c with
    | run => rcases htask with rfl | rfl | rfl; exacts [ht.1, ht, ht]
    | inPlace | replace => trivial
  | cleaned | dropped | deleted => exact inv_done (h.unregister _)
  | cleanedRun => exact inv_next (h.unregister _) (UsedOnlyBy.unregister ht)
  | alone => exact inv_next h (ht rfl)
  | shared => exact inv_next h nofun
  | prepared _ hprep =>
    exact inv_next (h.netStore fun _ _ _ _ _ hl => (hprep.listed _ _).mpr hl) fun _ => ht
  | deletedLast => exact inv_next (h.unregister _) (UsedOnlyBy.unregister (ht rfl))
  | @released t net ip _ hholds hcreate hrelease =>
    have hused : UsedOnlyBy [] sv.vms net ip := by
      cases t with
      | create => exact absurd rfl (hcreate _ _)
      | release | rollback => cases hholds; exact ht
      | _ => cases hholds
    refine inv_done (h.netStore fun v hv n i huses hl => ?_)
    refine (releaseIP_drops hrelease).keeps _ _ hl ?_
    rintro ⟨rfl, rfl⟩
    cases hused v hv huses

end

theorem inv_beside (h : Inv sv) (hcore : Core sv.netStore vms') (hcalmer : Calmer vms' sv.vms)
    (hsame : ∀ t ∈ sv.task, ∀ v ∈ vms', v.id ∈ t.vms → ∃ w ∈ sv.vms, w.id = v.id ∧ w.cfg = v.cfg)
    (restarts : List Restart) : Inv { sv with vms := vms', restarts := restarts } :=
  ⟨hcore, fun t ht => (h.task t ht).beside (fun net ip _ v hv => hcalmer v hv net ip) (hsame t ht)⟩

theorem inv_stepRestart {r : Restart} {i : Nat} (h : Inv sv)
    (hcond : RestartReady sv a r) : Inv (sv.stepRestart i a r) := by
  have hkept : ∀ restarts, Inv { sv with restarts := restarts } := fun _ => ⟨h.core, h.task⟩
  cases r with
  | wait old cfg =>
    simp only [stepRestart, Restart.step]
    split_ifs with hok
    · refine inv_beside h (h.core.create cfg (has_of_fresh hok.2)) (calmer_create _ _ _) ?_ _
      intro t ht v hv hmem
      rcases mem_create.mp hv with hv | rfl
      · exact ⟨v, hv, rfl, rfl⟩
      · exact absurd hmem (notMem_of_fresh hok.2 ht)
    · exact hkept _
  | begin old id =>
    simp only [stepRestart, Restart.step]
    split
    · rename_i vms hvms
      split_ifs at hvms with hok
      obtain ⟨v, hget, -, rfl⟩ := transition_eq_some hvms
      obtain ⟨hready, haddress⟩ := hcond hok v hget
      obtain ⟨hv, rfl⟩ := mem_of_get hget
      refine ⟨h.core.start hv hready, fun t ht => (h.task t ht).beside ?_ fun _ hw _ =>
        same_setState hw⟩
      intro net ip heq w hw huses
      rcases uses_start h.core hv hw huses with ⟨-, hnet, rfl, rfl⟩ | hold
      · exact absurd heq (haddress t ht hnet)
      · exact hold
    · exact hkept _
  | launch old id =>
    simp only [stepRestart, Restart.step]
    split
    · rename_i vms hvms
      split_ifs at hvms
      obtain ⟨v, hget, hvalid, rfl⟩ := transition_eq_some hvms
      obtain ⟨hv, rfl⟩ := mem_of_get hget
      have hactive := running_of_starting h.core hv hvalid
      exact inv_beside h (h.core.setState (by simp) hactive) (calmer_setState hactive)
        (fun _ _ _ hw _ => same_setState hw) _
    · exact hkept _
  | publish => exact hkept _
  | drop old =>
    simp only [stepRestart, Restart.step]
    split_ifs
    · exact inv_beside h (h.core.unregister old) (calmer_unregister _ _)
        (fun _ _ v hv _ => ⟨v, (mem_unregister.mp hv).1, rfl, rfl⟩) _
    · exact hkept _

/-! ## Runs -/

theorem inv_transition (h : Inv sv) (hstate : state ≠ .restoring) (hinactive : state.active = false)
    (restarts : List Restart) :
    Inv { sv with vms := (sv.vms.transition id state).getD sv.vms, restarts := restarts } := by
  cases htransition : sv.vms.transition id state with
  | none => exact ⟨h.core, h.task⟩
  | some =>
    obtain ⟨v, hget, hvalid, rfl⟩ := transition_eq_some htransition
    have hactive : ∀ w ∈ sv.vms, w.id = id → state.active = true → w.state.active = true := by
      intro w _ _ hact
      rw [hinactive] at hact
      cases hact
    exact inv_beside h (h.core.setState hstate hactive) (calmer_setState hactive)
      (fun _ _ _ hw _ => same_setState hw) _

theorem inv_opens {act : Action} (h : Core sv.netStore sv.vms) (hopens : Opens sv act t) :
    Inv (sv.next t) := by
  refine inv_next h ?_
  cases hopens with
  | detached => exact ⟨fun v _ huses => absurd rfl huses.1, fun hne => absurd rfl hne⟩
  | lease hnet => exact hnet
  | inPlace | replace => trivial
  | lookup =>
    intro hshared w hw huses
    by_contra hne
    rw [shared_iff.mpr ⟨w, hw, by simpa using hne, huses.2.2⟩] at hshared
    cases hshared
  | delete => exact nofun

theorem inv_networkRemoved {name : Text} (h : Inv sv)
    (hcond : NetworksInPlace sv (.networkRemoved name)) : Inv (sv.step (.networkRemoved name)) := by
  simp only [step]
  split_ifs with hmem
  · obtain ⟨hidle, htask⟩ := hcond hmem
    split
    · rename_i s' hremove
      have hother : ∀ {m ip}, m ≠ name → Listed sv.netStore m ip → Listed s' m ip := by
        rintro m ip hm ⟨d, hd, hip⟩
        exact ⟨d, by rwa [find?_remove hremove, if_neg hm], hip⟩
      refine ⟨h.core.netStore fun v hv net ip huses hl => hother (fun heq => ?_) hl,
        fun t ht => (h.task t ht).netStore fun net ip hrun hl =>
          hother (fun heq => htask t ht (heq ▸ hrun)) hl⟩
      have hact := huses.2.1
      rw [hidle v hv (huses.2.2.1.trans heq)] at hact
      cases hact
    · exact ⟨h.core, h.task⟩
  · exact h

theorem inv_step {act : Action} (hinv : Allocator.Inv sv.netStore) (h : Inv sv)
    (hrestart : NoRestart act) (hcond : NetworksInPlace sv act) : Inv (sv.step act) := by
  have hgrow : ∀ {s' : Store}, (∀ m t, Listed sv.netStore m t → Listed s' m t) →
      Inv { sv with netStore := s' } := fun hlisted =>
    ⟨h.core.netStore fun _ _ _ _ _ => hlisted _ _,
      fun t ht => (h.task t ht).netStore fun _ _ _ => hlisted _ _⟩
  by_cases hact : act.isRequest = true
  · rcases step_request sv hact with heq | ⟨-, t, hopens, heq⟩ <;> rw [heq]
    · exact h
    · exact inv_opens h.core hopens
  cases act with
  | run | start | remove => exact absurd rfl hact
  | task a =>
    simp only [step]
    split
    · rename_i t htask
      exact inv_turn h.core (h.task t htask) (hcond.1 t htask) (hcond.2 t htask)
        (turn_stepTask hinv a t)
    · exact h
  | stop | exited => exact inv_transition h (by simp) rfl _
  | restartVM =>
    simp only [step]
    split
    · exact inv_stepRestart h (hcond _ ‹_›)
    · exact h
  | networkCreate =>
    simp only [step]
    split
    · exact hgrow fun _ _ => listed_create ‹_›
    · exact h
  | networkAllocateIP =>
    simp only [step]
    split
    · rename_i ip s' hallocate
      exact hgrow fun m t ht => ((allocateIP_adds hallocate).listed m t).mpr (.inl ht)
    · exact h
  | networkRemove =>
    simp only [step]
    split_ifs
    · exact h
    · exact ⟨h.core, h.task⟩
  | networkRemoved => exact inv_networkRemoved h hcond
  | restart => exact hrestart.elim

theorem inv_booted (history : List Allocator.Op) : Inv (booted history) := by
  have hempty : ∀ v, v ∉ (booted history).vms := nofun
  exact ⟨⟨fun v hv => absurd hv (hempty v), fun v hv => absurd hv (hempty v),
    fun v hv => absurd hv (hempty v), fun v hv => absurd hv (hempty v)⟩, by simp [booted, boot]⟩

theorem inside_of_listed (hinv : Allocator.Inv s) (h : Listed s net ip) :
    ∃ d ∈ s.find? net, ∃ ipNet ∈ (readSubnet d.network).toOption,
      ∃ a ∈ parseTo4 ip, ipNet.contains a = true := by
  obtain ⟨d, hd, hmem⟩ := h
  obtain ⟨ipNet, hdir⟩ := hinv net d hd
  obtain ⟨i, -, hi, rfl⟩ := hdir.leases.hosts ip hmem
  refine ⟨d, hd, ipNet, ?_, ipNet.addr i, parseTo4_toText _, hdir.valid.contains_addr hi⟩
  rw [hdir.readSubnet]
  rfl

/-- In every run in which VM.Start, the automatic restarts and Network.Remove
keep to the condition, no two VMs that are starting or running on one network
have the same address, and each has an address of the subnet registered under
its network's name. -/
theorem running_addresses (history : List Allocator.Op) (acts : List Action)
    (hrestart : ∀ act ∈ acts, NoRestart act)
    (hcond : AllSteps step NetworksInPlace (booted history) acts) :
    Distinct (run step (booted history) acts) ∧ Inside (run step (booted history) acts) := by
  obtain ⟨hstore, hinv⟩ : Allocator.Inv (run step (booted history) acts).netStore ∧
      Inv (run step (booted history) acts) :=
    run_invariant_of_allSteps (I := fun sv => Allocator.Inv sv.netStore ∧ Inv sv)
      (fun sv act hI hP => ⟨storeInv_step sv act hI.1, inv_step hI.1 hI.2 hP.1 hP.2⟩)
      ⟨storeInv_booted history, inv_booted history⟩ (hcond.and_forall hrestart)
  constructor
  · intro v hv w hw hvact hwact hnet hsameNet hsameIP
    have hid := hinv.core.distinct v hv _ _ ⟨hnet, hvact, rfl, rfl⟩ w hw
      ⟨hnet, hwact, hsameNet.symm, hsameIP.symm⟩
    exact (hinv.core.unique w hw v hv (List.mem_singleton.mp hid)).symm
  · exact fun v hv hact hnet =>
      inside_of_listed hstore (hinv.core.listed v hv _ _ ⟨hnet, hact, rfl, rfl⟩)

/-- The VM `a` exits, and the network `app` is removed and created again. -/
def recreatedNetwork (subnet : Text) : List Action :=
  [.exited "a".toList false, .networkRemove "app".toList, .networkRemoved "app".toList,
    .networkCreate Allocator.quietHost "app".toList subnet []]

/-- VM.Start for a VM, with the VM `id` for its replacement. -/
def startedVM (old id : Text) : List Action :=
  .start old :: List.replicate 5 (grant id)

theorem running_addresses_restarted :
    Distinct (run step (booted (Allocator.allocations 0))
        (runVM "a".toList [] ++ restartedBy 5 "a".toList "b".toList ++
          .exited "b".toList false :: startedVM "b".toList "c".toList)) ∧
      Inside (run step (booted (Allocator.allocations 0))
        (runVM "a".toList [] ++ restartedBy 5 "a".toList "b".toList ++
          .exited "b".toList false :: startedVM "b".toList "c".toList)) := by
  refine running_addresses _ _ ?_ (by decide +kernel)
  simp [runVM, restartedBy, startedVM, grant, NoRestart]

/-- A stopped VM that is started again after its network was removed and
created anew runs with an address outside the new subnet, or with the address
of another running VM; and so does the replacement of a VM that was removed
before its automatic restart woke up. -/
theorem stale_address_runs :
    ¬Inside (run step (booted (Allocator.allocations 0))
        (runVM "a".toList [] ++ recreatedNetwork "10.0.1.0/29".toList ++
          startedVM "a".toList "b".toList)) ∧
      ¬Distinct (run step (booted (Allocator.allocations 0))
        (runVM "a".toList [] ++ recreatedNetwork "10.0.0.0/29".toList ++
          runVM "c".toList [] ++ startedVM "a".toList "b".toList)) ∧
      ¬Distinct (run step (booted (Allocator.allocations 0))
        (runVM "a".toList [] ++ [.exited "a".toList true, .remove "a".toList] ++
          List.replicate 4 (grant []) ++ runVM "c".toList [] ++
          List.replicate 3 (.restartVM 0 ⟨true, "b".toList⟩))) := by
  decide +kernel

end Jerboa.Api.Networks
