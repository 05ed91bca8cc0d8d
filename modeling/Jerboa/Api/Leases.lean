import Jerboa.Api.Server

/-!
# Registered VMs keep their leases

Every registered VM on a network has its address listed there, over all runs of
the daemon with refused removals, replacements, automatic restarts, rolled back
requests and restarts of the daemon, on two conditions.  An address that a
client names is spelled as `ReserveIP` lists it.  And a VM that replaces another
is registered only while no removal intent is recorded for its address and, in
an automatic restart, only while the VM it replaces is registered and no request
is at work on that VM.

The invariant speaks of the store and of who is registered (`Holds`); the life
cycle states play no part in it.
-/

namespace Jerboa.Api.Leases

open Lib.Run Net Net.Address Net.Store Api.Server Registry

abbrev Holders := Text → Config → Prop

section Predicates

variable (s : Store) (H : Holders)

def NoIntentFor (net ip : Text) : Prop := ∀ owner, ¬Intent s net owner ip

def Unheld (net ip : Text) : Prop :=
  ∀ id cfg, H id cfg → ¬(cfg.networkName = net ∧ cfg.ipAddress = ip)

def Sole (net ip id : Text) : Prop :=
  ∀ i cfg, H i cfg → cfg.networkName = net → cfg.ipAddress = ip → i = id

/-- The invariant of the store and the registry: an intent is for a listed
address, and no VM but the one that gives it back has it. -/
structure Core : Prop where
  listed : ∀ id cfg, H id cfg → cfg.networkName ≠ [] →
    Listed s cfg.networkName cfg.ipAddress
  backed : ∀ net owner ip, Intent s net owner ip → Listed s net ip
  sole : ∀ net owner ip, Intent s net owner ip → Sole H net ip owner

def CallerInv (id : Text) : Caller → Prop
  | .run net assigned => assigned ≠ [] → Sole H net assigned id
  | _ => True

def TaskInv : Task → Prop
  | .lease p _ => p.networkName ≠ []
  | .create cfg assigned =>
    (assigned ≠ [] → assigned = cfg.ipAddress ∧ Unheld H cfg.networkName cfg.ipAddress) ∧
      (cfg.networkName ≠ [] → Listed s cfg.networkName cfg.ipAddress ∧
        NoIntentFor s cfg.networkName cfg.ipAddress)
  | .replace _ cfg => cfg.networkName ≠ [] → Listed s cfg.networkName cfg.ipAddress
  | .begin c id => CallerInv H id c
  | .launch c id => CallerInv H id c
  | .publish c id => CallerInv H id c
  | .cleanup c id => CallerInv H id c
  | .dropOld _ => True
  | .lookup v shared => shared = false → Sole H v.cfg.networkName v.cfg.ipAddress v.id
  | .prepare v => Sole H v.cfg.networkName v.cfg.ipAddress v.id
  | .delete v release => release = true → Sole H v.cfg.networkName v.cfg.ipAddress v.id
  | .release v => Unheld H v.cfg.networkName v.cfg.ipAddress
  | .rollback net ip => Unheld H net ip

end Predicates

structure Inv (sv : Server) : Prop where
  core : Core sv.netStore sv.vms.Holds
  task : ∀ t ∈ sv.task, TaskInv sv.netStore sv.vms.Holds t

variable {s s' : Store} {H H' : Holders} {id net ip : Text} {vms : Registry} {cfg : Config}
  {t : Task}

/-! ## The store and the registry change -/

section

variable (hlisted : ∀ m t, Listed s m t → Listed s' m t)
  (hintent : ∀ m o t, Intent s' m o t → Intent s m o t) (hH : ∀ i c, H' i c → H i c)
include hlisted hintent hH

theorem TaskInv.mono (h : TaskInv s H t) : TaskInv s' H' t := by
  have hsole : ∀ {net ip id}, Sole H net ip id → Sole H' net ip id :=
    fun h i c hc => h i c (hH i c hc)
  have hunheld : ∀ {net ip}, Unheld H net ip → Unheld H' net ip := fun h i c hc => h i c (hH i c hc)
  have hcaller : ∀ {c id}, CallerInv H id c → CallerInv H' id c := by
    intro c id hc
    cases c with
    | run => exact fun hne => hsole (hc hne)
    | inPlace | replace => trivial
  cases t with
  | lease => exact h
  | create =>
    refine ⟨fun hne => ⟨(h.1 hne).1, hunheld (h.1 hne).2⟩, fun hnet => ?_⟩
    exact ⟨hlisted _ _ (h.2 hnet).1, fun o hi => (h.2 hnet).2 o (hintent _ _ _ hi)⟩
  | replace => exact fun hnet => hlisted _ _ (h hnet)
  | begin | launch | publish | cleanup => exact hcaller h
  | dropOld => trivial
  | lookup | delete => exact fun heq => hsole (h heq)
  | prepare => exact hsole h
  | release | rollback => exact hunheld h

end

/-- The intents stay or go, and what is held stays listed. -/
theorem Core.mono (h : Core s H)
    (hlisted : ∀ id cfg, H' id cfg → Listed s cfg.networkName cfg.ipAddress →
      Listed s' cfg.networkName cfg.ipAddress)
    (hintent : ∀ m o t, Intent s' m o t → Intent s m o t ∧ Listed s' m t)
    (hH : ∀ i c, H' i c → H i c) : Core s' H' :=
  ⟨fun id cfg hcfg hnet => hlisted id cfg hcfg (h.listed id cfg (hH _ _ hcfg) hnet),
    fun m o t hi => (hintent m o t hi).2,
    fun m o t hi i c hc => h.sole m o t (hintent m o t hi).1 i c (hH i c hc)⟩

theorem Core.register (h : Core s vms.Holds) (hinv : Allocator.Inv s) (cfg : Config)
    (hcfg : cfg.networkName ≠ [] → Listed s cfg.networkName cfg.ipAddress ∧
      NoIntentFor s cfg.networkName cfg.ipAddress) : Core s (vms.create id cfg).Holds := by
  rw [holds_create]
  refine ⟨?_, h.backed, ?_⟩
  · rintro i c (hc | ⟨rfl, rfl⟩) hnet
    · exact h.listed i c hc hnet
    · exact (hcfg hnet).1
  · rintro net owner ip hintent i c (hc | ⟨rfl, rfl⟩) rfl rfl
    · exact h.sole _ owner _ hintent i c hc rfl rfl
    · -- no intent is recorded for the address of the new VM
      have hnet := listed_ne_nil hinv (h.backed _ _ _ hintent)
      exact absurd hintent ((hcfg hnet).2 owner)

theorem Core.unregister (h : Core s vms.Holds) (id : Text) : Core s (vms.unregister id).Holds := by
  rw [holds_unregister]
  exact h.mono (fun _ _ _ hl => hl) (fun m o t hi => ⟨hi, h.backed m o t hi⟩) fun _ _ hc => hc.1

theorem unheld_of_sole (h : Sole vms.Holds net ip id) :
    Unheld (vms.unregister id).Holds net ip := by
  rw [holds_unregister]
  exact fun i c hc hkey => hc.2 (h i c hc.1 hkey.1 hkey.2)

theorem Core.adds (h : Core s H) (hadds : Adds s s' net ip) : Core s' H :=
  have hold : ∀ {m t}, Listed s m t → Listed s' m t := fun hl => (hadds.listed _ _).mpr (.inl hl)
  h.mono (fun _ _ _ => hold) (fun m o t hi =>
    ⟨(hadds.intent m o t).mp hi, hold (h.backed m o t ((hadds.intent m o t).mp hi))⟩) fun _ _ => id

theorem Core.release (h : Core s H) (hdrops : Drops s s' net ip) (hheld : Unheld H net ip) :
    Core s' H := by
  refine h.mono (fun id cfg hcfg hl => hdrops.keeps _ _ hl (hheld id cfg hcfg))
    (fun m o t hi => ⟨hdrops.intent_of m o t hi, ?_⟩) fun _ _ => id
  have hlisted := h.backed m o t (hdrops.intent_of m o t hi)
  refine hdrops.keeps m t hlisted ?_
  rintro ⟨rfl, rfl⟩
  exact hdrops.forgets o hi hlisted

theorem Core.prepare (h : Core s H) (hprep : Prepares s s' net id ip) (hsole : Sole H net ip id) :
    Core s' H := by
  refine ⟨fun i c hc hn => (hprep.listed _ _).mpr (h.listed i c hc hn), ?_, ?_⟩
  · intro n o t hi
    rw [hprep.listed]
    rcases hprep.intent_of n o t hi with hold | ⟨rfl, rfl, rfl, hlisted⟩
    · exact h.backed n o t hold
    · exact hlisted
  · intro n o t hi
    rcases hprep.intent_of n o t hi with hold | ⟨rfl, rfl, rfl, -⟩
    · exact h.sole n o t hold
    · exact hsole

theorem Core.recover (h : Core s H) {live : Text → Bool}
    (hlive : ∀ id cfg, H id cfg → live id = true) : Core (s.recoverReleases live) H := by
  refine h.mono (fun id cfg hcfg hl => listed_recoverReleases hl fun owner hi => ?_)
    (fun m o t hi => absurd hi (not_intent_recoverReleases live m o t)) fun _ _ => id
  -- whoever intends to give back the address is its only holder
  cases h.sole _ _ _ hi id cfg hcfg rfl rfl
  exact hlive id cfg hcfg

/-- A restarted VM has the address of the VM it replaces, so a request that
relies on an address being held by one VM, or by none, is about another one. -/
theorem TaskInv.register {old : Text} (h : TaskInv s vms.Holds t) (hold : vms.Holds old cfg)
    (halone : old ∉ t.vms) : TaskInv s (vms.create id cfg).Holds t := by
  rw [holds_create]
  have hunheld : ∀ {net ip}, Unheld vms.Holds net ip →
      Unheld (fun i c => vms.Holds i c ∨ i = id ∧ c = cfg) net ip := by
    rintro net ip h i c (hc | ⟨rfl, rfl⟩)
    · exact h i c hc
    · exact h old c hold
  have hsole : ∀ {net ip i}, i ∈ t.vms → Sole vms.Holds net ip i →
      Sole (fun i c => vms.Holds i c ∨ i = id ∧ c = cfg) net ip i := by
    rintro net ip i hi h j c (hc | ⟨rfl, rfl⟩) hnet hip
    · exact h j c hc hnet hip
    · exact absurd (h old c hold hnet hip ▸ hi) halone
  have hcaller : ∀ {c i}, i ∈ t.vms → CallerInv vms.Holds i c →
      CallerInv (fun i c => vms.Holds i c ∨ i = id ∧ c = cfg) i c := by
    intro c i hi hc
    cases c with
    | run => exact fun hne => hsole hi (hc hne)
    | inPlace | replace => trivial
  cases t with
  | lease | replace | dropOld => exact h
  | create => exact ⟨fun hne => ⟨(h.1 hne).1, hunheld (h.1 hne).2⟩, h.2⟩
  | begin | launch | publish | cleanup => exact hcaller (by simp [Task.vms]) h
  | lookup | delete => exact fun heq => hsole (by simp [Task.vms]) (h heq)
  | prepare => exact hsole (by simp [Task.vms]) h
  | release | rollback => exact hunheld h

/-! ## One step -/

/-- The condition on a step of a request: an address is spelled as it is
listed, and a replacement is made only if nobody is about to give back its
address. -/
def RegistersTask (s : Store) (a : Answer) (t : Task) : Prop :=
  SpelledTask s t ∧ ∀ cfg ∈ t.replaces, a.ok = true → ¬HasIntent s cfg.networkName cfg.ipAddress
deriving Decidable

/-- The condition on a step of an automatic restart: as for a replacement, and
the VM it replaces is registered and no request is at work on it. -/
def RegistersRestart (sv : Server) (a : Answer) : Restart → Prop
  | .wait old cfg => a.ok = true →
    ¬HasIntent sv.netStore cfg.networkName cfg.ipAddress ∧
      (∃ v ∈ sv.vms, v.id = old ∧ v.cfg = cfg) ∧ ∀ t ∈ sv.task, old ∉ t.vms
  | _ => True

def Registers (sv : Server) : Action → Prop
  | .task a => ∀ t ∈ sv.task, RegistersTask sv.netStore a t
  | .restartVM i a => ∀ r ∈ sv.restarts[i]?, RegistersRestart sv a r
  | _ => True

instance (sv : Server) (a : Answer) : ∀ r, Decidable (RegistersRestart sv a r)
  | .wait _ _ => inferInstanceAs (Decidable (_ → ¬_ ∧ (∃ v ∈ _, _) ∧ ∀ t ∈ _, _))
  | .begin _ _ | .launch _ _ | .publish _ _ | .drop _ _ => .isTrue trivial

instance (sv : Server) : ∀ act, Decidable (Registers sv act)
  | .task _ | .restartVM _ _ => inferInstanceAs (Decidable (∀ t ∈ _, _))
  | .run _ | .start _ | .remove _ | .stop _ | .exited _ _ | .restart _ => .isTrue trivial
  | .networkCreate _ _ _ _ | .networkAllocateIP _ | .networkRemove _ | .networkRemoved _ =>
    .isTrue trivial

variable {sv sv' : Server} {a : Answer}

theorem inv_done (h : Core sv.netStore sv.vms.Holds) : Inv sv.done :=
  ⟨h, by simp [done]⟩

theorem inv_next (h : Core sv.netStore sv.vms.Holds) (ht : TaskInv sv.netStore sv.vms.Holds t) :
    Inv (sv.next t) := by
  refine ⟨h, ?_⟩
  rintro _ ⟨⟩
  exact ht

theorem inv_leased {p : RunParams} {n : Network} (h : Core sv.netStore sv.vms.Holds)
    (hp : p.networkName ≠ []) (hadds : Adds sv.netStore s' p.networkName ip) :
    Inv ({ sv with netStore := s' }.next (.create (p.config n ip) ip)) := by
  refine inv_next (h.adds hadds) ⟨fun _ => ⟨rfl, ?_⟩, fun _ =>
    ⟨(hadds.listed _ _).mpr (.inr ⟨rfl, rfl⟩), fun owner hi => ?_⟩⟩
  · -- the address taken was not listed before, so no VM has it and no intent is for it
    rintro id cfg hcfg ⟨hnet, rfl⟩
    replace hnet : cfg.networkName = p.networkName := hnet
    exact hadds.fresh (hnet ▸ h.listed id cfg hcfg (hnet ▸ hp))
  · exact hadds.fresh (h.backed _ _ _ ((hadds.intent _ _ _).mp hi))

theorem inv_turn (hinv : Allocator.Inv sv.netStore) (h : Core sv.netStore sv.vms.Holds)
    (ht : TaskInv sv.netStore sv.vms.Holds t) (hcond : RegistersTask sv.netStore a t)
    (hturn : Turn sv a t sv') : Inv sv' := by
  cases hturn with
  | stop | networkGone => exact inv_done h
  | leased _ _ hadds => exact inv_leased h ht (hadds hcond.1)
  | created hnew =>
    refine inv_next (h.register hinv _ ht.2) fun hne i c hc hnet hip => ?_
    obtain ⟨rfl, hheld⟩ := ht.1 hne
    rw [holds_create] at hc
    rcases hc with hold | ⟨rfl, -⟩
    · exact absurd ⟨hnet, hip⟩ (hheld i c hold)
    · rfl
  | notCreated hne =>
    obtain ⟨rfl, hheld⟩ := ht.1 hne
    exact inv_next h hheld
  | replaced hok =>
    exact inv_next (h.register hinv _ fun hnet =>
      ⟨ht hnet, fun owner hi => hcond.2 _ rfl hok hi.hasIntent⟩) trivial
  | began | launched => exact inv_next (by rwa [holds_setState]) (by rwa [holds_setState])
  | started => exact inv_next h trivial
  | notStarted _ htask =>
    refine inv_next h ?_
    rcases htask with rfl | rfl | rfl <;> exact ht
  | cleaned | dropped | deleted => exact inv_done (h.unregister _)
  | cleanedRun hne => exact inv_next (h.unregister _) (unheld_of_sole (ht hne))
  | alone => exact inv_next h (ht rfl)
  | shared => exact inv_next h nofun
  | prepared _ hprep => exact inv_next (h.prepare hprep ht) fun _ => ht
  | deletedLast => exact inv_next (h.unregister _) (unheld_of_sole (ht rfl))
  | @released t net ip _ hholds hcreate hrelease =>
    have hheld : Unheld sv.vms.Holds net ip := by
      cases t with
      | create => exact absurd rfl (hcreate _ _)
      | release | rollback => cases hholds; exact ht
      | _ => cases hholds
    exact inv_done (h.release (releaseIP_drops hrelease) hheld)

theorem inv_stepRestart {r : Restart} {i : Nat} (hinv : Allocator.Inv sv.netStore) (h : Inv sv)
    (hcond : RegistersRestart sv a r) : Inv (sv.stepRestart i a r) := by
  have hmoves : ∀ {vms' : Registry}, vms'.Holds = sv.vms.Holds → ∀ restarts,
      Inv { sv with vms := vms', restarts := restarts } := by
    intro vms' heq restarts
    exact ⟨by rw [heq]; exact h.core, by rw [heq]; exact h.task⟩
  cases r with
  | wait old cfg =>
    simp only [stepRestart, Restart.step]
    split_ifs with hok
    · obtain ⟨hno, hold, halone⟩ := hcond hok.1
      refine ⟨h.core.register hinv cfg fun hnet => ⟨h.core.listed old cfg hold hnet, fun o hi =>
        hno hi.hasIntent⟩, fun t ht => (h.task t ht).register hold (halone t ht)⟩
    · exact hmoves rfl _
  | begin | launch =>
    simp only [stepRestart, Restart.step]
    split
    · rename_i vms hvms
      split_ifs at hvms
      exact hmoves (holds_transition hvms) _
    · exact hmoves rfl _
  | publish => exact hmoves rfl _
  | drop old =>
    simp only [stepRestart, Restart.step]
    split_ifs
    · refine ⟨h.core.unregister old, fun t ht => ?_⟩
      refine (h.task t ht).mono (fun _ _ hl => hl) (fun _ _ _ hi => hi) fun i c hc => ?_
      rw [holds_unregister] at hc
      exact hc.1
    · exact hmoves rfl _

/-! ## Runs -/

/-- Network.Remove takes the leases of a network away, and is not among the
requests considered here. -/
def KeepsNetworks : Action → Prop
  | .networkRemove _ => False
  | .networkRemoved _ => False
  | _ => True

theorem inv_opens {act : Action} (h : Core sv.netStore sv.vms.Holds) (hopens : Opens sv act t) :
    Inv (sv.next t) := by
  refine inv_next h ?_
  cases hopens with
  | detached => exact ⟨fun hne => absurd rfl hne, fun hne => absurd rfl hne⟩
  | lease hnet => exact hnet
  | inPlace => trivial
  | replace hv => exact fun hnet => h.listed _ _ ⟨_, hv, rfl, rfl⟩ hnet
  | lookup =>
    rintro hshared i c ⟨w, hw, rfl, rfl⟩ hnet hip
    by_contra hne
    rw [shared_iff.mpr ⟨w, hw, hne, hnet, hip⟩] at hshared
    cases hshared
  | delete => exact nofun

theorem inv_step {act : Action} (hinv : Allocator.Inv sv.netStore) (h : Inv sv)
    (hkeeps : KeepsNetworks act) (hcond : Registers sv act) : Inv (sv.step act) := by
  have hgrow : ∀ {store : Store}, (∀ m t, Listed sv.netStore m t → Listed store m t) →
      (∀ m o t, Intent store m o t → Intent sv.netStore m o t) →
      Inv { sv with netStore := store } := fun hlisted hintent =>
    ⟨h.core.mono (fun _ _ _ => hlisted _ _) (fun m o t hi =>
      ⟨hintent m o t hi, hlisted m t (h.core.backed m o t (hintent m o t hi))⟩) fun _ _ => id,
      fun t ht => (h.task t ht).mono hlisted hintent fun _ _ => id⟩
  have hstates : ∀ id state restarts,
      Inv { sv with vms := (sv.vms.transition id state).getD sv.vms, restarts := restarts } := by
    intro id state restarts
    refine ⟨?_, ?_⟩ <;> simp only [holds_getD_transition]
    · exact h.core
    · exact h.task
  by_cases hact : act.isRequest = true
  · rcases step_request sv hact with heq | ⟨-, t, hopens, heq⟩ <;> rw [heq]
    · exact h
    · exact inv_opens h.core hopens
  cases act with
  | run | start | remove => exact absurd rfl hact
  | task a =>
    simp only [step]
    split
    · rename_i t htask
      exact inv_turn hinv h.core (h.task t htask) (hcond t htask) (turn_stepTask hinv a t)
    · exact h
  | stop id => exact hstates id .stopping _
  | exited id => exact hstates id .stopped _
  | restartVM =>
    simp only [step]
    split
    · exact inv_stepRestart hinv h (hcond _ ‹_›)
    · exact h
  | networkCreate =>
    simp only [step]
    split
    · rename_i n store hcreate
      exact hgrow (fun _ _ => listed_create hcreate) fun _ _ _ => intent_create hcreate
    · exact h
  | networkAllocateIP =>
    simp only [step]
    split
    · rename_i ip store hallocate
      have hadds := allocateIP_adds hallocate
      exact hgrow (fun m t ht => (hadds.listed m t).mpr (.inl ht))
        fun m o t ht => (hadds.intent m o t).mp ht
    · exact h
  | networkRemove | networkRemoved => exact hkeeps.elim
  | restart =>
    refine ⟨?_, by simp [step]⟩
    simp only [step, holds_restored]
    exact h.core.recover fun id cfg hcfg => has_iff.mpr ⟨cfg, hcfg⟩

theorem inv_booted (history : List Allocator.Op) : Inv (booted history) := by
  have hno := not_intent_recoverReleases (s := run Allocator.apply Store.empty history)
    fun _ => false
  have hempty : ∀ id cfg, ¬(booted history).vms.Holds id cfg := by
    rintro id cfg ⟨v, hv, -⟩
    cases hv
  exact ⟨⟨fun id cfg hc => absurd hc (hempty id cfg), fun n o t hi => absurd hi (hno n o t),
    fun n o t hi => absurd hi (hno n o t)⟩, by simp [booted, boot]⟩

/-- In every run in which addresses are spelled as they are listed and VMs are
replaced, by VM.Start or by an automatic restart, on the conditions above,
every registered VM on a network has its address listed there. -/
theorem registered_listed (history : List Allocator.Op) (acts : List Action)
    (hkeeps : ∀ act ∈ acts, KeepsNetworks act)
    (hcond : AllSteps step Registers (booted history) acts) :
    ∀ v ∈ (run step (booted history) acts).vms, v.cfg.networkName ≠ [] →
      Listed (run step (booted history) acts).netStore v.cfg.networkName v.cfg.ipAddress := by
  have hinv : Allocator.Inv (run step (booted history) acts).netStore ∧
      Inv (run step (booted history) acts) :=
    run_invariant_of_allSteps
      (I := fun sv => Allocator.Inv sv.netStore ∧ Inv sv)
      (fun sv act hI hP => ⟨storeInv_step sv act hI.1, inv_step hI.1 hI.2 hP.1 hP.2⟩)
      ⟨storeInv_booted history, inv_booted history⟩ (hcond.and_forall hkeeps)
  intro v hv hnet
  exact hinv.2.core.listed v.id v.cfg ⟨v, hv, rfl, rfl⟩ hnet

/-- The removal of a running VM is refused and leaves its intent. -/
def refusedRemoval (id : Text) : List Action :=
  .remove id :: List.replicate 3 (grant [])

/-- The VM `a` exits and is started again as the VM `b`. -/
def restartedVM : List Action :=
  .exited "a".toList false :: .start "a".toList :: List.replicate 5 (grant "b".toList)

/-- The VM `a` runs and is restarted as the VM `b`, whose removal is refused;
then the daemon dies and starts again. -/
def restartedAndKept : List Action :=
  runVM "a".toList [] ++ restartedBy 5 "a".toList "b".toList ++ refusedRemoval "b".toList ++
    [.restart fun _ => .running]

theorem registered_listed_refused_removal :
    ∃ v ∈ (run step (booted (Allocator.allocations 0)) restartedAndKept).vms,
      Listed (run step (booted (Allocator.allocations 0)) restartedAndKept).netStore
        v.cfg.networkName v.cfg.ipAddress := by
  have hsome : ∃ v ∈ (run step (booted (Allocator.allocations 0)) restartedAndKept).vms,
      v.cfg.networkName ≠ [] := by
    decide +kernel
  obtain ⟨v, hv, hnet⟩ := hsome
  refine ⟨v, hv, registered_listed _ _ ?_ (by decide +kernel) v hv hnet⟩
  simp [restartedAndKept, runVM, restartedBy, refusedRemoval, grant, KeepsNetworks]

/-- A registered VM on a network does not have its address listed. -/
def Unlisted (sv : Server) : Prop :=
  ∃ v ∈ sv.vms, v.cfg.networkName ≠ [] ∧
    ¬Listed sv.netStore v.cfg.networkName v.cfg.ipAddress
deriving Decidable

/-- The intent of a refused removal outlives the VM when the VM is replaced, by
VM.Start or by an automatic restart, and the next restart of the daemon frees
the address of the replacement; and a VM whose address is spelled as a mapped
IPv6 address does not have that text listed. -/
theorem exists_registered_not_listed :
    Unlisted (run step (booted (Allocator.allocations 0))
        (runVM "a".toList [] ++ refusedRemoval "a".toList ++ restartedVM ++
          [.restart fun _ => .running])) ∧
      Unlisted (run step (booted (Allocator.allocations 0))
        (runVM "a".toList [] ++ refusedRemoval "a".toList ++
          restartedBy 5 "a".toList "b".toList ++ [.restart fun _ => .running])) ∧
      Unlisted (run step (booted (Allocator.allocations 0))
        (runVM "a".toList "::ffff:10.0.0.5".toList)) := by
  decide +kernel

end Jerboa.Api.Leases
