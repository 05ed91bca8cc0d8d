import Jerboa.Api.Registry
import Jerboa.Net.Lease

/-!
# The daemon's address handling

`apiserver.Server` as a transition system.  VM.Run, VM.Start and VM.Remove hold
the resource lock for the whole request, so at most one of them is under way;
it is the server's `task`, cut at every call into the network store or the VM
manager.  Everything that does not take the lock happens between two steps of
the task: VMs stop and exit, the manager restarts a VM that has exited
(`restartVM`, which takes no lock either), networks come and go
(Network.Remove first looks at the VMs and removes the network later),
addresses are allocated, and the daemon may die and start again.

What the manager answers is part of the action (`Answer`), so that a run has
every outcome: a VM that cannot be created or started, or whose removal is
refused because another operation owns it.  Requests that fail before they
touch the network store or the registry have no effect and are left out.
-/

namespace Jerboa.Api

open Lib.Run Net Net.Address Net.Store Allocator Registry

structure RunParams where
  name : Text
  networkName : Text
  ipAddress : Text
deriving DecidableEq, Repr

/-- Who called `Manager.Start`: VM.Run with the address it took, VM.Start on a
VM that never ran, or VM.Start with a replacement for the VM `old`. -/
inductive Caller where
  | run (network assigned : Text)
  | inPlace
  | replace (old : Text)
deriving DecidableEq, Repr

/-- What the request that holds the resource lock does next. -/
inductive Task where
  | lease (p : RunParams) (n : Network)
  /-- VM.Run: create the VM.  `assigned` is empty without a network. -/
  | create (cfg : Config) (assigned : Text)
  | replace (old : Text) (cfg : Config)
  | begin (caller : Caller) (id : Text)
  | launch (caller : Caller) (id : Text)
  | publish (caller : Caller) (id : Text)
  | cleanup (caller : Caller) (id : Text)
  | dropOld (old : Text)
  | lookup (v : VM) (shared : Bool)
  | prepare (v : VM)
  | delete (v : VM) (release : Bool)
  | release (v : VM)
  /-- VM.Run: give back the address of a VM that was not created or started. -/
  | rollback (network ip : Text)
deriving DecidableEq

def Caller.vms : Caller → List Text
  | .replace old => [old]
  | _ => []

/-- The VMs a request is at work on. -/
def Task.vms : Task → List Text
  | .lease _ _ => []
  | .create _ _ => []
  | .replace old _ => [old]
  | .begin c id => id :: c.vms
  | .launch c id => id :: c.vms
  | .publish c id => id :: c.vms
  | .cleanup c id => id :: c.vms
  | .dropOld old => [old]
  | .lookup v _ => [v.id]
  | .prepare v => [v.id]
  | .delete v _ => [v.id]
  | .release v => [v.id]
  | .rollback _ _ => []

/-- The address that a request has to give back and that no VM has. -/
def Task.holds : Task → Option (Text × Text)
  | .create cfg assigned => if assigned = [] then none else some (cfg.networkName, assigned)
  | .release v => some (v.cfg.networkName, v.cfg.ipAddress)
  | .rollback network ip => some (network, ip)
  | _ => none

/-- The parameters for which VM.Run takes an address. -/
def Task.leases : Task → Option RunParams
  | .lease p _ => some p
  | _ => none

/-- The configuration with which VM.Start makes a replacement. -/
def Task.replaces : Task → Option Config
  | .replace _ cfg => some cfg
  | _ => none

/-- What `restartVM` does next for the VM `old`, which has exited, and its
replacement `id`. -/
inductive Restart where
  | wait (old : Text) (cfg : Config)
  | begin (old id : Text)
  | launch (old id : Text)
  | publish (old id : Text)
  | drop (old id : Text)
deriving DecidableEq, Repr

structure Server where
  netStore : Store
  vms : Registry
  task : Option Task
  removals : List Text
  restarts : List Restart

/-- What the manager answers: whether the call succeeds, and the id of a VM it
creates. -/
structure Answer where
  ok : Bool
  id : Text
deriving DecidableEq, Repr

/-- A step of `restartVM`.  The old VM may be gone, or have been started again,
by the time it wakes up; it does not look, and when it fails it leaves the
replacement behind. -/
def Restart.step (vms : Registry) (a : Answer) (isNew : Bool) : Restart → Registry × Option Restart
  | .wait old cfg =>
    if a.ok ∧ isNew then (vms.create a.id cfg, some (.begin old a.id)) else (vms, none)
  | .begin old id =>
    match if a.ok then vms.transition id .starting else none with
    | some vms => (vms, some (.launch old id))
    | none => (vms, none)
  | .launch old id =>
    match if a.ok then vms.transition id .running else none with
    | some vms => (vms, some (.publish old id))
    | none => (vms, none)
  | .publish old id => (vms, if a.ok then some (.drop old id) else none)
  | .drop old _ => (if a.ok then vms.unregister old else vms, none)

def maskFromCIDR (subnet : Text) : Text :=
  if '/' ∈ subnet then (subnet.reverse.takeWhile (· ≠ '/')).reverse else []

def RunParams.config (p : RunParams) (n : Network) (ip : Text) : Config where
  name := p.name
  networkName := p.networkName
  ipAddress := ip
  gatewayIP := n.gateway
  bridgeName := n.bridge
  subnetMask := maskFromCIDR n.subnet

def RunParams.detached (p : RunParams) : Config where
  name := p.name
  networkName := []
  ipAddress := p.ipAddress
  gatewayIP := []
  bridgeName := []
  subnetMask := []

namespace Server

def boot (store : Store) : Server :=
  ⟨store.recoverReleases fun _ => false, [], none, [], []⟩

/-- Ids are 48 random bits; the model takes them to be new, so `id` is neither
registered nor that of a VM a request is at work on. -/
def fresh (sv : Server) (id : Text) : Bool :=
  !sv.vms.has id && sv.task.all fun t => id ∉ t.vms

/-- The request is over. -/
def done (sv : Server) : Server := { sv with task := none }

def next (sv : Server) (t : Task) : Server := { sv with task := some t }

def handleRun (sv : Server) (p : RunParams) : Server :=
  if p.networkName = [] then sv.next (.create p.detached [])
  else
    match sv.netStore.get p.networkName with
    | .ok n => sv.next (.lease p n)
    | .error _ => sv

def nameInUse (sv : Server) (name : Text) : Bool :=
  name ≠ [] && sv.vms.any (·.cfg.name = name)

def handleStart (sv : Server) (id : Text) : Server :=
  match sv.vms.get id with
  | some v =>
    match v.state with
    | .created => sv.next (.begin .inPlace v.id)
    | .stopped => sv.next (.replace v.id v.cfg)
    | _ => sv
  | none => sv

/-- Another registered VM has the same address on the same network. -/
def shared (sv : Server) (v : VM) : Bool :=
  sv.vms.any fun other =>
    other.id ≠ v.id ∧ other.cfg.networkName = v.cfg.networkName ∧
      other.cfg.ipAddress = v.cfg.ipAddress

def removeVM (sv : Server) (id : Text) : Server :=
  match sv.vms.get id with
  | some v =>
    if v.cfg.networkName ≠ [] ∧ v.cfg.ipAddress ≠ [] then sv.next (.lookup v (sv.shared v))
    else sv.next (.delete v false)
  | none => sv

/-- The first half of `handleNetworkRemove`: no VM of the network may be
running. -/
def networkInUse (sv : Server) (name : Text) : Bool :=
  sv.vms.any fun v =>
    v.cfg.networkName = name ∧ (v.state = .running ∨ v.state = .restoring)

def rollback (sv : Server) (network assigned : Text) : Server :=
  if assigned = [] then sv.done else sv.next (.rollback network assigned)

def started (sv : Server) : Caller → Server
  | .run _ _ => sv.done
  | .inPlace => sv.done
  | .replace old => sv.next (.dropOld old)

def failed (sv : Server) (id : Text) : Caller → Server
  | .run network assigned => sv.next (.cleanup (.run network assigned) id)
  | .inPlace => sv.done
  | .replace old => sv.next (.cleanup (.replace old) id)

def cleaned (sv : Server) : Caller → Server
  | .run network assigned => sv.rollback network assigned
  | .inPlace => sv.done
  | .replace _ => sv.done

def takeLease (sv : Server) (p : RunParams) (n : Network) : Server :=
  if p.ipAddress = [] then
    match sv.netStore.allocateIP p.networkName with
    | .ok (ip, store) =>
      { sv with netStore := store }.next (.create (p.config n ip.toText) ip.toText)
    | .error _ => sv.done
  else
    match sv.netStore.reserveIP p.networkName p.ipAddress with
    | .ok store => { sv with netStore := store }.next (.create (p.config n p.ipAddress) p.ipAddress)
    | .error _ => sv.done

/-- A state change of `Manager.Start`, which may also fail on its own. -/
def advance (sv : Server) (a : Answer) (c : Caller) (id : Text) (state : State) (t : Task) :
    Server :=
  match if a.ok then sv.vms.transition id state else none with
  | some vms => { sv with vms := vms }.next t
  | none => sv.failed id c

def giveBack (sv : Server) (network ip : Text) : Server :=
  match sv.netStore.releaseIP network ip with
  | .ok store => { sv with netStore := store }.done
  | .error _ => sv.done

def stepTask (sv : Server) (a : Answer) : Task → Server
  | .lease p n => sv.takeLease p n
  | .create cfg assigned =>
    if a.ok ∧ sv.nameInUse cfg.name = false ∧ sv.fresh a.id then
      { sv with vms := sv.vms.create a.id cfg }.next (.begin (.run cfg.networkName assigned) a.id)
    else sv.rollback cfg.networkName assigned
  | .replace old cfg =>
    if a.ok ∧ sv.fresh a.id then
      { sv with vms := sv.vms.create a.id cfg }.next (.begin (.replace old) a.id)
    else sv.done
  | .begin c id => sv.advance a c id .starting (.launch c id)
  | .launch c id => sv.advance a c id .running (.publish c id)
  | .publish c id => if a.ok then sv.started c else sv.failed id c
  | .cleanup c id =>
    match sv.vms.remove id (!a.ok) with
    | some vms => { sv with vms := vms }.cleaned c
    | none => sv.done
  | .dropOld old =>
    match sv.vms.remove old (!a.ok) with
    | some vms => { sv with vms := vms }.done
    | none => sv.done
  | .lookup v shared =>
    match sv.netStore.get v.cfg.networkName with
    -- the error wraps the file system's, which `os.IsNotExist` does not see
    | .error _ => sv.done
    | .ok _ => if shared then sv.next (.delete v false) else sv.next (.prepare v)
  | .prepare v =>
    match sv.netStore.prepareRelease v.cfg.networkName v.id v.cfg.ipAddress with
    | .ok store => { sv with netStore := store }.next (.delete v true)
    | .error _ => sv.done
  | .delete v release =>
    match sv.vms.remove v.id (!a.ok) with
    | some vms =>
      if release then { sv with vms := vms }.next (.release v)
      else { sv with vms := vms }.done
    | none => sv.done
  | .release v => sv.giveBack v.cfg.networkName v.cfg.ipAddress
  | .rollback network ip => sv.giveBack network ip

def monitor (sv : Server) (id : Text) (restart : Bool) : List Restart :=
  match sv.vms.get id with
  | some v => if restart then [.wait v.id v.cfg] else []
  | none => []

def stepRestart (sv : Server) (i : Nat) (a : Answer) (r : Restart) : Server :=
  let (vms, next) := r.step sv.vms a (sv.fresh a.id)
  { sv with vms := vms, restarts := sv.restarts.eraseIdx i ++ next.toList }

/-! ## Runs -/

inductive Action where
  | run (p : RunParams)
  | start (id : Text)
  | remove (id : Text)
  | task (a : Answer)
  | stop (id : Text)
  /-- The process of the VM is gone, and the monitor restarts it or does not:
  that its policy, the restarts before and an explicit stop decide. -/
  | exited (id : Text) (restart : Bool)
  /-- A step of the `i`-th of the restarts under way. -/
  | restartVM (i : Nat) (a : Answer)
  | networkCreate (host : Host) (name subnet driver : Text)
  | networkAllocateIP (name : Text)
  | networkRemove (name : Text)
  | networkRemoved (name : Text)
  /-- The daemon dies and starts again; the registry is restored with
  `states`. -/
  | restart (states : Text → State)

def step (sv : Server) : Action → Server
  | .run p => if sv.task = none then sv.handleRun p else sv
  | .start id => if sv.task = none then sv.handleStart id else sv
  | .remove id => if sv.task = none then sv.removeVM id else sv
  | .task a =>
    match sv.task with
    | some t => sv.stepTask a t
    | none => sv
  | .stop id => { sv with vms := (sv.vms.transition id .stopping).getD sv.vms }
  | .exited id restart =>
    { sv with
        vms := (sv.vms.transition id .stopped).getD sv.vms
        restarts := sv.restarts ++ sv.monitor id restart }
  | .restartVM i a =>
    match sv.restarts[i]? with
    | some r => sv.stepRestart i a r
    | none => sv
  | .networkCreate host name subnet driver =>
    match sv.netStore.create host name subnet driver with
    | .ok (_, store) => { sv with netStore := store }
    | .error _ => sv
  | .networkAllocateIP name =>
    match sv.netStore.allocateIP name with
    | .ok (_, store) => { sv with netStore := store }
    | .error _ => sv
  | .networkRemove name =>
    if sv.networkInUse name then sv else { sv with removals := name :: sv.removals }
  | .networkRemoved name =>
    if name ∈ sv.removals then
      match sv.netStore.remove name with
      | .ok store => { sv with netStore := store, removals := sv.removals.erase name }
      | .error _ => { sv with removals := sv.removals.erase name }
    else sv
  | .restart states =>
    { netStore := sv.netStore.recoverReleases sv.vms.has
      vms := sv.vms.map fun v => { v with state := states v.id }
      task := none
      removals := []
      restarts := [] }

/-! ## What a step can come to

A request, and each of its steps, is unfolded once: what is proved of the
daemon below goes through the outcomes of `Opens` and `Turn`. -/

/-- The task with which a request starts. -/
inductive Opens (sv : Server) : Action → Task → Prop where
  | detached {p : RunParams} (hnet : p.networkName = []) :
    Opens sv (.run p) (.create p.detached [])
  | lease {p : RunParams} {n : Network} (hnet : p.networkName ≠ []) : Opens sv (.run p) (.lease p n)
  | inPlace {v : VM} (hv : v ∈ sv.vms) : Opens sv (.start v.id) (.begin .inPlace v.id)
  | replace {v : VM} (hv : v ∈ sv.vms) : Opens sv (.start v.id) (.replace v.id v.cfg)
  | lookup {v : VM} (hv : v ∈ sv.vms) (hnet : v.cfg.networkName ≠ []) :
    Opens sv (.remove v.id) (.lookup v (sv.shared v))
  | delete {v : VM} (hv : v ∈ sv.vms) (hnet : v.cfg.networkName ≠ [] → v.cfg.ipAddress = []) :
    Opens sv (.remove v.id) (.delete v false)

def Action.isRequest : Action → Bool
  | .run _ => true
  | .start _ => true
  | .remove _ => true
  | _ => false

theorem step_request (sv : Server) {act : Action} (hact : act.isRequest = true) :
    sv.step act = sv ∨ sv.task = none ∧ ∃ t, Opens sv act t ∧ sv.step act = sv.next t := by
  cases act with
  | run p =>
    simp only [step, handleRun]
    split_ifs with htask hnet
    · exact .inr ⟨htask, _, .detached hnet, rfl⟩
    · split
      · exact .inr ⟨htask, _, .lease hnet, rfl⟩
      · exact .inl rfl
    · exact .inl rfl
  | start =>
    simp only [step, handleStart]
    split_ifs with htask
    · split
      · rename_i v hget
        obtain ⟨hv, rfl⟩ := mem_of_get hget
        split
        · exact .inr ⟨htask, _, .inPlace hv, rfl⟩
        · exact .inr ⟨htask, _, .replace hv, rfl⟩
        · exact .inl rfl
      · exact .inl rfl
    · exact .inl rfl
  | remove =>
    simp only [step, removeVM]
    split_ifs with htask
    · split
      · rename_i v hget
        obtain ⟨hv, rfl⟩ := mem_of_get hget
        split_ifs with hnet
        · exact .inr ⟨htask, _, .lookup hv hnet.1, rfl⟩
        · exact .inr ⟨htask, _, .delete hv (by simpa using hnet), rfl⟩
      · exact .inl rfl
    · exact .inl rfl
  | _ => cases hact

theorem shared_iff {sv : Server} {v : VM} :
    sv.shared v = true ↔ ∃ w ∈ sv.vms, w.id ≠ v.id ∧
      w.cfg.networkName = v.cfg.networkName ∧ w.cfg.ipAddress = v.cfg.ipAddress := by
  simp [shared]

theorem has_of_fresh {sv : Server} {id : Text} (h : sv.fresh id = true) :
    sv.vms.has id = false := by
  simp only [fresh, Bool.and_eq_true, Bool.not_eq_true'] at h
  exact h.1

theorem notMem_of_fresh {sv : Server} {id : Text} (h : sv.fresh id = true) {t : Task}
    (ht : t ∈ sv.task) : id ∉ t.vms := by
  simp only [fresh, Bool.and_eq_true, Option.all_eq_true, decide_eq_true_eq] at h
  exact h.2 t ht

/-- An address that a client names and `ReserveIP` accepts is spelled as it is
listed. -/
def SpelledTask (s : Store) (t : Task) : Prop :=
  ∀ p ∈ t.leases, (s.reserveIP p.networkName p.ipAddress).isOk = true → Canonical p.ipAddress
deriving Decidable

/-- The outcomes of a step of the request under way. -/
inductive Turn (sv : Server) (a : Answer) : Task → Server → Prop where
  | stop {t : Task} (hholds : t.holds = none) : Turn sv a t sv.done
  | leased {p : RunParams} {n : Network} {ip : Text} {store : Store} (hinv : Allocator.Inv store)
      (hne : ip ≠ [])
      (hadds : SpelledTask sv.netStore (.lease p n) → Adds sv.netStore store p.networkName ip) :
    Turn sv a (.lease p n) ({ sv with netStore := store }.next (.create (p.config n ip) ip))
  | created {cfg : Config} {assigned : Text} (hnew : sv.fresh a.id = true) :
    Turn sv a (.create cfg assigned)
      ({ sv with vms := sv.vms.create a.id cfg }.next (.begin (.run cfg.networkName assigned) a.id))
  | notCreated {cfg : Config} {assigned : Text} (hne : assigned ≠ []) :
    Turn sv a (.create cfg assigned) (sv.next (.rollback cfg.networkName assigned))
  | replaced {old : Text} {cfg : Config} (hok : a.ok = true) (hnew : sv.fresh a.id = true) :
    Turn sv a (.replace old cfg)
      ({ sv with vms := sv.vms.create a.id cfg }.next (.begin (.replace old) a.id))
  | began {c : Caller} {v : VM} (hok : a.ok = true) (hget : sv.vms.get v.id = some v) :
    Turn sv a (.begin c v.id)
      ({ sv with vms := sv.vms.setState v.id .starting }.next (.launch c v.id))
  | launched {c : Caller} {v : VM} (hv : v ∈ sv.vms)
    (hvalid : .running ∈ validTransitions v.state) :
    Turn sv a (.launch c v.id)
      ({ sv with vms := sv.vms.setState v.id .running }.next (.publish c v.id))
  | started {old id : Text} : Turn sv a (.publish (.replace old) id) (sv.next (.dropOld old))
  | notStarted {t : Task} {c : Caller} {id : Text} (hc : c ≠ .inPlace)
      (ht : t = .begin c id ∨ t = .launch c id ∨ t = .publish c id) :
    Turn sv a t (sv.next (.cleanup c id))
  | cleaned {c : Caller} {id : Text} (hc : ∀ net assigned, c = .run net assigned → assigned = []) :
    Turn sv a (.cleanup c id) { sv with vms := sv.vms.unregister id }.done
  | cleanedRun {net assigned id : Text} (hne : assigned ≠ []) :
    Turn sv a (.cleanup (.run net assigned) id)
      ({ sv with vms := sv.vms.unregister id }.next (.rollback net assigned))
  | dropped {old : Text} : Turn sv a (.dropOld old) { sv with vms := sv.vms.unregister old }.done
  | alone {v : VM} : Turn sv a (.lookup v false) (sv.next (.prepare v))
  | shared {v : VM} : Turn sv a (.lookup v true) (sv.next (.delete v false))
  | prepared {v : VM} {store : Store} (hinv : Allocator.Inv store)
      (hprep : Prepares sv.netStore store v.cfg.networkName v.id v.cfg.ipAddress) :
    Turn sv a (.prepare v) ({ sv with netStore := store }.next (.delete v true))
  | deleted {v : VM} : Turn sv a (.delete v false) { sv with vms := sv.vms.unregister v.id }.done
  | deletedLast {v : VM} :
    Turn sv a (.delete v true) ({ sv with vms := sv.vms.unregister v.id }.next (.release v))
  | released {t : Task} {net ip : Text} {store : Store} (ht : t.holds = some (net, ip))
      (hcreate : ∀ cfg assigned, t ≠ .create cfg assigned)
      (hrelease : sv.netStore.releaseIP net ip = .ok store) :
    Turn sv a t { sv with netStore := store }.done
  | networkGone {t : Task} {net ip : Text} (ht : t.holds = some (net, ip))
      (hfind : sv.netStore.find? net = none) : Turn sv a t sv.done

variable {sv : Server} {a : Answer} {c : Caller} {id net ip : Text} {t t' : Task}

theorem turn_failed (ht : t = .begin c id ∨ t = .launch c id ∨ t = .publish c id) :
    Turn sv a t (sv.failed id c) := by
  cases c with
  | run | replace => exact .notStarted (by simp) ht
  | inPlace =>
    apply Turn.stop
    rcases ht with rfl | rfl | rfl <;> rfl

theorem turn_advance {state : State}
    (ht : t = .begin c id ∨ t = .launch c id ∨ t = .publish c id)
    (hturn : ∀ v, a.ok = true → sv.vms.get v.id = some v → state ∈ validTransitions v.state →
      v.id = id → Turn sv a t ({ sv with vms := sv.vms.setState v.id state }.next t')) :
    Turn sv a t (sv.advance a c id state t') := by
  unfold advance
  split
  · rename_i vms hvms
    split_ifs at hvms with hok
    obtain ⟨v, hget, hvalid, rfl⟩ := transition_eq_some hvms
    obtain ⟨-, rfl⟩ := mem_of_get hget
    exact hturn v hok hget hvalid rfl
  · exact turn_failed ht

section

variable (hinv : Allocator.Inv sv.netStore)
include hinv

theorem turn_giveBack (ht : t.holds = some (net, ip))
    (hcreate : ∀ cfg assigned, t ≠ .create cfg assigned) : Turn sv a t (sv.giveBack net ip) := by
  unfold giveBack
  split
  · rename_i store hrelease
    exact .released ht hcreate hrelease
  · rename_i err hrelease
    exact .networkGone ht (find?_of_releaseIP_error hinv hrelease)

theorem turn_takeLease (p : RunParams) (n : Network) :
    Turn sv a (.lease p n) (sv.takeLease p n) := by
  unfold takeLease
  split_ifs with hauto
  · split
    · rename_i ip store hallocate
      exact .leased (inv_allocateIP hinv hallocate) (Subnet.toText_ne_nil ip) fun _ =>
        allocateIP_adds hallocate
    · exact .stop rfl
  · split
    · rename_i store hreserve
      exact .leased (inv_reserveIP hinv hreserve) hauto fun hspelled =>
        reserveIP_adds hreserve (hspelled p rfl (by rw [hreserve]; rfl))
    · exact .stop rfl

theorem turn_stepTask (a : Answer) (t : Task) : Turn sv a t (sv.stepTask a t) := by
  cases t with
  | lease p n => exact turn_takeLease hinv p n
  | create cfg assigned =>
    simp only [stepTask, rollback]
    split_ifs with hok hempty
    · exact .created hok.2.2
    · exact .stop (by rw [Task.holds, if_pos hempty])
    · exact .notCreated hempty
  | replace =>
    simp only [stepTask]
    split_ifs with hok
    · exact .replaced hok.1 hok.2
    · exact .stop rfl
  | begin c id =>
    refine turn_advance (.inl rfl) fun v hok hget _ hid => ?_
    subst hid
    exact .began hok hget
  | launch c id =>
    refine turn_advance (.inr (.inl rfl)) fun v _ hget hvalid hid => ?_
    subst hid
    exact .launched (mem_of_get hget).1 hvalid
  | publish c id =>
    simp only [stepTask]
    split_ifs
    · cases c with
      | run | inPlace => exact .stop rfl
      | replace => exact .started
    · exact turn_failed (.inr (.inr rfl))
  | cleanup c id =>
    simp only [stepTask]
    split
    · rename_i vms hremove
      obtain ⟨-, -, -, rfl⟩ := remove_eq_some hremove
      cases c with
      | run net assigned =>
        simp only [Server.cleaned, rollback]
        split_ifs with hempty
        · exact .cleaned (by simpa using hempty)
        · exact .cleanedRun hempty
      | inPlace | replace => exact .cleaned (by simp)
    · exact .stop rfl
  | dropOld =>
    simp only [stepTask]
    split
    · rename_i vms hremove
      obtain ⟨-, -, -, rfl⟩ := remove_eq_some hremove
      exact .dropped
    · exact .stop rfl
  | lookup v shared =>
    simp only [stepTask]
    split
    · exact .stop rfl
    · cases shared with
      | false => exact .alone
      | true => exact .shared
  | prepare =>
    simp only [stepTask]
    split
    · rename_i store hprepare
      exact .prepared (inv_prepareRelease hinv hprepare) (prepareRelease_prepares hprepare)
    · exact .stop rfl
  | delete v release =>
    simp only [stepTask]
    split
    · rename_i vms hremove
      obtain ⟨-, -, -, rfl⟩ := remove_eq_some hremove
      cases release with
      | false => exact .deleted
      | true => exact .deletedLast
    · exact .stop rfl
  | release | rollback => exact turn_giveBack hinv rfl (by simp)

end

/-! ## The store along a run

Whatever the daemon does, it changes the network store by the store's own
requests, so the allocator's invariant holds in every state. -/

theorem storeInv_turn {sv' : Server} (h : Allocator.Inv sv.netStore) (hturn : Turn sv a t sv') :
    Allocator.Inv sv'.netStore := by
  cases hturn with
  | leased hinv => exact hinv
  | prepared hinv => exact hinv
  | released _ _ hrelease => exact inv_releaseIP h hrelease
  | _ => exact h

theorem storeInv_step (sv : Server) (act : Action) (h : Allocator.Inv sv.netStore) :
    Allocator.Inv (sv.step act).netStore := by
  by_cases hact : act.isRequest = true
  · rcases step_request sv hact with heq | ⟨-, t, -, heq⟩ <;> rw [heq] <;> exact h
  cases act with
  | run | start | remove => exact absurd rfl hact
  | task a =>
    simp only [step]
    split
    · exact storeInv_turn h (turn_stepTask h a _)
    · exact h
  | stop | exited => exact h
  | restartVM =>
    simp only [step]
    split <;> exact h
  | networkCreate =>
    simp only [step]
    split
    · exact inv_create h ‹_›
    · exact h
  | networkAllocateIP =>
    simp only [step]
    split
    · exact inv_allocateIP h ‹_›
    · exact h
  | networkRemove =>
    simp only [step]
    split_ifs <;> exact h
  | networkRemoved =>
    simp only [step]
    split_ifs
    · split
      · exact inv_remove h ‹_›
      · exact h
    · exact h
  | restart => exact inv_recoverReleases h _

/-- The daemon on the store that any history of requests left behind. -/
def booted (history : List Allocator.Op) : Server :=
  boot (run Allocator.apply Store.empty history)

theorem storeInv_booted (history : List Allocator.Op) :
    Allocator.Inv (booted history).netStore :=
  inv_recoverReleases (inv_run history) _

/-- A manager that does what it is asked to, with `id` for a VM it creates. -/
def grant (id : Text) : Action := .task ⟨true, id⟩

/-- VM.Run on the network `app`, step by step, for the VM `id`. -/
def runVM (id ipAddress : Text) : List Action :=
  .run ⟨[], "app".toList, ipAddress⟩ :: List.replicate 5 (grant id)

/-- The VM `old` exits, and the first `n` steps of the restart are made, with
the VM `id` for its replacement. -/
def restartedBy (n : Nat) (old id : Text) : List Action :=
  .exited old true :: List.replicate n (.restartVM 0 ⟨true, id⟩)

end Server

end Jerboa.Api
