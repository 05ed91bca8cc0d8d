import Jerboa.Api.Registry
import Jerboa.Lib.Run
import Mathlib.Data.List.AList

/-!
# VM lifecycles

The two VM managers with everything that runs at the same time: the calls of
users, the monitors that wait for the processes, and the automatic restarts the
monitors leave behind.  A thread is one such goroutine, and a step is what one
of them does between two points at which another can come in: one access under
the mutex of a VM, of the VM store or of the claims.

The two managers share their steps.  Firecracker has `lifecycleClaims`, takes a
claim at the head of every call and of a restart, advertises a pending restart,
and offers snapshots; QEMU has none of these.

What the outside decides is part of a step (`Choice`): whether a launch, a
signal or a capture works, how the process exits, which VM of a name the store
finds first, and the random id of a new VM.
-/

namespace Jerboa.Vm.Lifecycle

open Function Net.Address Lib.Run
open Jerboa.Api (State validTransitions)

inductive Backend where
  | qemu
  | firecracker
deriving DecidableEq, Repr

/-- `RestartPolicy`; the empty and the unknown ones do what `never` does. -/
inductive RestartPolicy where
  | never
  | always
  | onFailure
deriving DecidableEq, Repr

/-- The part of a VM's configuration the lifecycle looks at. -/
structure Config where
  name : Text
  policy : RestartPolicy
  maxRetries : Int
deriving DecidableEq

/-- A VM object.  The last two fields are history: a `Stop` or `Kill` of the VM
has returned success since the VM last came to life, and a `Remove` of it has
returned success. -/
structure Obj where
  id : Text
  cfg : Config
  state : State
  explicitStop : Bool
  proc : Bool
  restartCount : Int
  stopped : Bool
  removed : Bool
deriving DecidableEq

def Obj.new (id : Text) (cfg : Config) : Obj := ⟨id, cfg, .created, false, false, 0, false, false⟩

/-- `(*VM).transition`; `none` where the state machine lacks the edge. -/
def Obj.transition (v : Obj) (next : State) : Option Obj :=
  if next ∈ validTransitions v.state then some { v with state := next } else none

/-- VM objects are numbered in the order they are made. -/
abbrev Ref := Nat

inductive Op where
  | start
  | stop
  | kill
  | remove
  | snapshotCreate
  | snapshotRestore
  | monitor
  | restart
deriving DecidableEq, Repr

inductive BodyPc where
  -- Start
  | toStarting
  | launch
  | toRunning
  | publish
  | spawnMonitor (ok : Bool)
  -- Stop and Kill
  | checkStopped
  | toStopping
  | mark
  | signal
  -- Remove
  | checkRemovable
  | delete
  -- SnapshotCreate
  | checkRunning
  | capture
  | forceStop
  | forceMark
  -- SnapshotRestore
  | checkPending
  | checkRestorable
  | verify
  | beginRestore
  | load
  | commit
  | rollback
  -- monitor
  | wait
  | readMark (failed : Bool)
  | toStopped (failed explicit : Bool)
  | decide (failed explicit : Bool)
  -- restartVM
  | sleep
  | checkOld
  | create
  | setCount (replacement : Ref)
  | removeOld
  | clearPending
  -- The return from any of them.
  | finish (ok : Bool)
deriving DecidableEq, Repr

/-- The next step of a thread: `claimVM`, of which QEMU has the lookup only, and
then its function. -/
inductive Pc where
  | resolve (key : Text)
  | claim (r : Ref)
  | recheck (r : Ref)
  | checkRestoring (r : Ref)
  | body (pc : BodyPc)
deriving DecidableEq

/-- A `restartVM` that waits for the `Start` of its replacement. -/
structure Caller where
  old : Ref
  claimed : Option Text
deriving DecidableEq

/-- A goroutine.  `ref` is the VM it works on, once it knows it; a restart knows
it from the outset.  `claimed` is the id its release will free. -/
structure Thread where
  op : Op
  ref : Option Ref
  claimed : Option Text
  caller : Option Caller
  pc : Pc
deriving DecidableEq

structure Sys where
  objs : Ref → Obj
  nextRef : Ref
  vms : AList fun _ : Text => Ref
  claims : Text → Option Op
  pending : Text → Bool
  threads : Nat → Option Thread
  nextThread : Nat

/-- A daemon without VMs. -/
def Sys.init : Sys where
  objs := fun _ => Obj.new [] ⟨[], .never, 0⟩
  nextRef := 0
  vms := ∅
  claims := fun _ => none
  pending := fun _ => false
  threads := fun _ => none
  nextThread := 0

structure Choice where
  ok : Bool
  pick : Nat
  id : Text
deriving DecidableEq

namespace Sys

variable (s : Sys)

/-- `Store.Resolve`: a VM by its id, by its name (whichever the map yields
first), or by a prefix only its id has. -/
def resolve (key : Text) (pick : Nat) : Option Ref :=
  match s.vms.lookup key with
  | some r => some r
  | none =>
    match s.vms.entries.filter fun e => (s.objs e.2).cfg.name = key with
    | e :: es => some ((e :: es).get ⟨pick % (es.length + 1), Nat.mod_lt _ es.length.succ_pos⟩).2
    | [] =>
      match s.vms.entries.filter fun e => key.isPrefixOf e.1 with
      | [e] => some e.2
      | _ => none

/-- `newID`: six random bytes in hexadecimal.  That no VM had them before is an
assumption: the code takes what the generator gives. -/
def FreshId (id : Text) : Prop := id.length = 12 ∧ ∀ r < s.nextRef, (s.objs r).id ≠ id

instance (id : Text) : Decidable (s.FreshId id) :=
  inferInstanceAs (Decidable (_ ∧ ∀ r < s.nextRef, _))

end Sys

/-! ## One step of a thread -/

inductive StoreChange where
  | keep
  | erase (id : Text)
  | create (v : Obj)

inductive ClaimChange where
  | keep
  | claim (id : Text) (op : Op)
  | release (id : Text) (op : Op)

/-- What a step changes: the thread itself, a thread it starts, a VM object,
the store, the claims, and the pending restarts. -/
structure Effect where
  next : Option Thread
  spawn : Option Thread := none
  write : Option (Ref × (Obj → Obj)) := none
  store : StoreChange := .keep
  claims : ClaimChange := .keep
  pending : Option (Text × Bool) := none

def ClaimChange.apply : ClaimChange → (Text → Option Op) → Text → Option Op
  | .keep, claims => claims
  | .claim id op, claims => update claims id (some op)
  | .release id op, claims =>
    if claims id = some op then update claims id none else claims

namespace Sys

def write (objs : Ref → Obj) : Option (Ref × (Obj → Obj)) → Ref → Obj
  | some (r, f) => update objs r (f (objs r))
  | none => objs

def addThread (s : Sys) (th : Thread) : Sys :=
  { s with
    threads := update s.threads s.nextThread (some th)
    nextThread := s.nextThread + 1 }

def addVM (s : Sys) (v : Obj) : Sys :=
  { s with
    objs := update s.objs s.nextRef v
    nextRef := s.nextRef + 1
    vms := s.vms.insert v.id s.nextRef }

def changeStore (s : Sys) : StoreChange → Sys
  | .keep => s
  | .erase id => { s with vms := s.vms.erase id }
  | .create v => s.addVM v

def goOn (s : Sys) (t : Nat) (next spawn : Option Thread) : Sys :=
  let s := { s with threads := update s.threads t next }
  match spawn with
  | some th => s.addThread th
  | none => s

def apply (s : Sys) (t : Nat) (e : Effect) : Sys :=
  ({ s with
      objs := write s.objs e.write
      claims := e.claims.apply s.claims
      pending := match e.pending with
        | some (id, b) => update s.pending id b
        | none => s.pending }.changeStore e.store).goOn t e.next e.spawn

end Sys

def entry : Op → BodyPc
  | .start => .toStarting
  | .stop => .checkStopped
  | .kill => .checkStopped
  | .remove => .checkRemovable
  | .snapshotCreate => .checkRunning
  | .snapshotRestore => .checkPending
  | .monitor => .wait
  | .restart => .checkOld

def Thread.goto (th : Thread) (pc : BodyPc) : Option Thread := some { th with pc := .body pc }

/-- `claimVM` has returned the VM `r`.  A restart does not look at it. -/
def Thread.enter (th : Thread) (r : Ref) : Option Thread :=
  some { th with ref := if th.op = .restart then th.ref else some r, pc := .body (entry th.op) }

/-- What is left of a thread when its function returns.  The `Start` a restart
has called returns to it, and a restart of Firecracker clears its mark. -/
def Thread.return (backend : Backend) (th : Thread) (ok : Bool) : Option Thread :=
  match th.caller with
  | some caller =>
    some ⟨.restart, some caller.old, caller.claimed, none,
      .body (if ok then .removeOld else .finish false)⟩
  | none =>
    if th.op = .restart ∧ backend = .firecracker then
      some { th with claimed := none, pc := .body .clearPending }
    else none

def monitorThread (r : Ref) : Thread := ⟨.monitor, some r, none, none, .body .wait⟩

def shouldRestart (v : Obj) (failed explicit : Bool) : Bool :=
  !explicit &&
    (match v.cfg.policy with
      | .never => false
      | .always => true
      | .onFailure => failed) &&
    (v.cfg.maxRetries ≤ 0 || v.restartCount < v.cfg.maxRetries)

def Thread.release (th : Thread) : ClaimChange :=
  match th.claimed with
  | some id => .release id th.op
  | none => .keep

/-- What a call that returns success leaves in the history of its VM. -/
def Op.record (op : Op) (r : Ref) : Option (Ref × (Obj → Obj)) :=
  match op with
  | .stop | .kill => some (r, fun v => { v with stopped := true })
  | .remove => some (r, fun v => { v with removed := true })
  | _ => none

/-- A transition of the VM, and where the thread goes with and without it. -/
def Thread.moveTo (th : Thread) (r : Ref) (v : Obj) (next : State) (yes no : BodyPc) : Effect :=
  match v.transition next with
  | some v' => { next := th.goto yes, write := some (r, fun _ => v') }
  | none => { next := th.goto no }

def setExplicitStop (r : Ref) : Option (Ref × (Obj → Obj)) :=
  some (r, fun v => { v with explicitStop := true })

/-- A step inside the function of the thread, which works on the VM `v` at
`r`. -/
def planBody (backend : Backend) (s : Sys) (th : Thread) (r : Ref) (v : Obj) (c : Choice) :
    BodyPc → Effect
  | .toStarting =>
    if c.ok then th.moveTo r v .starting .launch (.finish false)
    else { next := th.goto (.finish false) }
  | .launch =>
    if c.ok then
      { next := th.goto .toRunning, write := some (r, fun v => { v with proc := true }) }
    else th.moveTo r v .stopped (.finish false) (.finish false)
  | .toRunning =>
    -- A failed setup, and a refused transition, abort the launch.
    match if c.ok then v.transition .running else none with
    | some v' => { next := th.goto .publish, write := some (r, fun _ => v') }
    | none => { next := th.goto (.spawnMonitor false), write := setExplicitStop r }
  | .publish =>
    if c.ok then { next := th.goto (.spawnMonitor true) }
    else { next := th.goto (.spawnMonitor false), write := setExplicitStop r }
  | .spawnMonitor ok => { next := th.goto (.finish ok), spawn := some (monitorThread r) }
  | .checkStopped =>
    { next := th.goto (if v.state = .stopped then .finish true else .toStopping) }
  | .toStopping => th.moveTo r v .stopping .mark (.finish false)
  | .mark => { next := th.goto .signal, write := setExplicitStop r }
  | .signal => { next := th.goto (.finish (!v.proc || c.ok)) }
  | .checkRemovable =>
    { next := th.goto
        (if v.state = .stopped ∨ v.state = .created then .delete else .finish false) }
  | .delete =>
    if v.id ∈ s.vms then { next := th.goto (.finish true), store := .erase v.id }
    else { next := th.goto (.finish false) }
  | .checkRunning => { next := th.goto (if v.state = .running then .capture else .finish false) }
  | .capture =>
    -- A guest that cannot be resumed is stopped, if it still runs.
    if c.ok then { next := th.goto (.finish true) }
    else { next := th.goto (if v.state = .running then .forceStop else .finish false) }
  | .forceStop => th.moveTo r v .stopping .forceMark .forceMark
  | .forceMark => { next := th.goto (.finish false), write := setExplicitStop r }
  | .checkPending =>
    { next := th.goto (if s.pending v.id then .finish false else .checkRestorable) }
  | .checkRestorable =>
    { next := th.goto (if v.state = .stopped then .verify else .finish false) }
  | .verify => { next := th.goto (if c.ok then .beginRestore else .finish false) }
  | .beginRestore =>
    if v.state = .stopped then
      { next := th.goto .load
        write := some (r, fun v =>
          { v with state := .restoring, explicitStop := false, proc := false, stopped := false }) }
    else { next := th.goto (.finish false) }
  | .load =>
    if c.ok then
      { next := th.goto .commit, write := some (r, fun v => { v with proc := true }) }
    else { next := th.goto .rollback }
  | .commit =>
    -- The record of the running VM may fail to be written after it runs.
    th.moveTo r v .running (if c.ok then .spawnMonitor true else .rollback) .rollback
  | .rollback =>
    { next := th.goto (.finish false)
      write := some (r, fun v => { v with state := .stopped, proc := false }) }
  | .wait => { next := th.goto (.readMark (!c.ok)) }
  | .readMark failed => { next := th.goto (.toStopped failed v.explicitStop) }
  | .toStopped failed explicit =>
    th.moveTo r v .stopped (.decide failed explicit) (.decide failed explicit)
  | .decide failed explicit =>
    if shouldRestart v failed explicit then
      { next := some ⟨.restart, some r, none, none, .body .sleep⟩
        pending := if backend = .firecracker then some (v.id, true) else none }
    else { next := none }
  | .sleep =>
    match backend with
    | .qemu => { next := th.goto .create }
    | .firecracker => { next := some { th with pc := .resolve v.id } }
  | .checkOld => { next := th.goto (if v.state = .stopped then .create else .finish false) }
  | .create =>
    if s.FreshId c.id then
      { next := th.goto (.setCount s.nextRef), store := .create (Obj.new c.id v.cfg) }
    else { next := th.goto (.finish false) }
  | .setCount replacement =>
    { next := some ⟨.start, none, none, some ⟨r, th.claimed⟩,
        .resolve (s.objs replacement).id⟩
      write := some (replacement, fun w => { w with restartCount := v.restartCount + 1 }) }
  | .removeOld => { next := th.goto (.finish true), store := .erase v.id }
  | .clearPending => { next := none, pending := some (v.id, false) }
  | .finish ok =>
    { next := th.return backend ok
      claims := th.release
      write := if ok then th.op.record r else none }

def plan (backend : Backend) (s : Sys) (th : Thread) (c : Choice) : Effect :=
  match th.pc with
  | .resolve key =>
    match s.resolve key c.pick with
    | none => { next := th.return backend false }
    | some r =>
      match backend with
      | .qemu => { next := th.enter r }
      | .firecracker => { next := some { th with pc := .claim r } }
  | .claim r =>
    match s.claims (s.objs r).id with
    | some _ => { next := th.return backend false }
    | none =>
      { next := some { th with claimed := some (s.objs r).id, pc := .recheck r }
        claims := .claim (s.objs r).id th.op }
  | .recheck r =>
    if s.vms.lookup (s.objs r).id = some r then
      { next := some { th with pc := .checkRestoring r } }
    else { next := th.return backend false, claims := th.release }
  | .checkRestoring r =>
    if (s.objs r).state = .restoring then
      { next := th.return backend false, claims := th.release }
    else { next := th.enter r }
  | .body pc =>
    match th.ref with
    | some r => planBody backend s th r (s.objs r) c pc
    | none => { next := none }

inductive Action where
  | create (cfg : Config) (id : Text)
  | call (op : Op) (key : Text)
  | advance (t : Nat) (c : Choice)

def callThread (op : Op) (key : Text) : Thread := ⟨op, none, none, none, .resolve key⟩

def Op.offered (backend : Backend) : Op → Bool
  | .start | .stop | .kill | .remove => true
  | .snapshotCreate | .snapshotRestore => backend = .firecracker
  | .monitor | .restart => false

def step (backend : Backend) (s : Sys) : Action → Sys
  | .create cfg id => if s.FreshId id then s.addVM (Obj.new id cfg) else s
  | .call op key =>
    if op.offered backend then s.addThread (callThread op key) else s
  | .advance t c =>
    match s.threads t with
    | some th => s.apply t (plan backend s th c)
    | none => s

/-- What holds of a state and of whatever a step makes of it, holds after the step. -/
theorem step_induction {backend : Backend} {s : Sys} {a : Action} {P : Sys → Prop} (hs : P s)
    (hcreate : ∀ cfg id, s.FreshId id → P (s.addVM (Obj.new id cfg)))
    (hcall : ∀ op key, op.offered backend = true → P (s.addThread (callThread op key)))
    (hadvance : ∀ t c th, a = .advance t c → s.threads t = some th →
      P (s.apply t (plan backend s th c))) : P (step backend s a) := by
  cases a with
  | create cfg id =>
    simp only [step]
    split
    · next hfresh => exact hcreate cfg id hfresh
    · exact hs
  | call op key =>
    simp only [step]
    split
    · next hop => exact hcall op key hop
    · exact hs
  | advance t c =>
    simp only [step]
    split
    · next th hth => exact hadvance t c th rfl hth
    · exact hs

/-- The step creates a replacement of the VM `old`. -/
def Creates (s : Sys) (a : Action) (old : Ref) : Prop :=
  ∃ t c th, a = .advance t c ∧ s.threads t = some th ∧ th.pc = .body .create ∧
    th.ref = some old ∧ s.FreshId c.id

/-! ## The state after a step -/

namespace Sys

variable {s : Sys} {t : Nat} {e : Effect}

theorem threads_apply_eq : (s.apply t e).threads =
    match e.spawn with
    | some th => update (update s.threads t e.next) s.nextThread (some th)
    | none => update s.threads t e.next := by
  obtain ⟨next, spawn, write, store, claims, pending⟩ := e
  cases store <;> cases spawn <;> rfl

theorem threads_apply {t' : Nat} {th' : Thread} (h : (s.apply t e).threads t' = some th') :
    (t' = t ∧ e.next = some th') ∨ (t' = s.nextThread ∧ e.spawn = some th') ∨
      (t' ≠ t ∧ s.threads t' = some th') := by
  rw [threads_apply_eq] at h
  have hupdate : update s.threads t e.next t' = some th' →
      (t' = t ∧ e.next = some th') ∨ (t' ≠ t ∧ s.threads t' = some th') := by
    intro h
    rcases eq_or_ne t' t with rfl | hne
    · exact .inl ⟨rfl, by rwa [update_self] at h⟩
    · exact .inr ⟨hne, by rwa [update_of_ne hne] at h⟩
  cases hspawn : e.spawn with
  | none =>
    rw [hspawn] at h
    exact (hupdate h).imp_right .inr
  | some =>
    rw [hspawn] at h
    rcases eq_or_ne t' s.nextThread with rfl | hne
    · simp only [update_self] at h
      exact .inr (.inl ⟨rfl, h⟩)
    · simp only [update_of_ne hne] at h
      exact (hupdate h).imp_right .inr

@[simp] theorem nextThread_apply :
    (s.apply t e).nextThread = s.nextThread + if e.spawn.isSome then 1 else 0 := by
  obtain ⟨next, spawn, write, store, claims, pending⟩ := e
  cases store <;> cases spawn <;> rfl

theorem objs_apply {r : Ref} (hr : r < s.nextRef) :
    (s.apply t e).objs r = Sys.write s.objs e.write r := by
  obtain ⟨next, spawn, write, store, claims, pending⟩ := e
  cases store with
  | create =>
    have hne : r ≠ s.nextRef := Nat.ne_of_lt hr
    cases spawn <;>
      simp [apply, changeStore, goOn, addThread, addVM, update_of_ne hne]
  | _ => cases spawn <;> rfl

theorem nextRef_apply : (s.apply t e).nextRef =
    match e.store with
    | .create _ => s.nextRef + 1
    | _ => s.nextRef := by
  obtain ⟨next, spawn, write, store, claims, pending⟩ := e
  cases store <;> cases spawn <;> rfl

theorem objs_apply_create {v : Obj} (h : e.store = .create v) :
    (s.apply t e).objs s.nextRef = v := by
  obtain ⟨next, spawn, write, store, claims, pending⟩ := e
  cases h
  cases spawn <;> simp [apply, changeStore, goOn, addThread, addVM]

@[simp] theorem claims_apply : (s.apply t e).claims = e.claims.apply s.claims := by
  obtain ⟨next, spawn, write, store, claims, pending⟩ := e
  cases store <;> cases spawn <;> rfl

theorem pending_apply : (s.apply t e).pending =
    match e.pending with
    | some (id, b) => update s.pending id b
    | none => s.pending := by
  obtain ⟨next, spawn, write, store, claims, pending⟩ := e
  cases store <;> cases spawn <;> rfl

theorem vms_apply : (s.apply t e).vms =
    match e.store with
    | .keep => s.vms
    | .erase id => s.vms.erase id
    | .create v => s.vms.insert v.id s.nextRef := by
  obtain ⟨next, spawn, write, store, claims, pending⟩ := e
  cases store <;> cases spawn <;> rfl

theorem objs_addVM {v : Obj} {r : Ref} (hr : r < s.nextRef) : (s.addVM v).objs r = s.objs r := by
  simp [addVM, update_of_ne (Nat.ne_of_lt hr)]

theorem threads_addThread {t' : Nat} {th th' : Thread}
    (h : (s.addThread th).threads t' = some th') :
    (t' = s.nextThread ∧ th' = th) ∨ s.threads t' = some th' := by
  rcases eq_or_ne t' s.nextThread with rfl | hne
  · simp only [addThread, update_self, Option.some.injEq] at h
    exact .inl ⟨rfl, h.symm⟩
  · simp only [addThread, update_of_ne hne] at h
    exact .inr h

theorem write_some (objs : Ref → Obj) (r r' : Ref) (f : Obj → Obj) :
    write objs (some (r, f)) r' = if r' = r then f (objs r) else objs r' := by
  simp only [write, update_apply]

theorem of_write {P : Obj → Prop} {objs : Ref → Obj} {r : Ref} {w : Option (Ref × (Obj → Obj))}
    (hkeep : P (objs r)) (hwrite : ∀ f, w = some (r, f) → P (f (objs r))) :
    P (write objs w r) := by
  cases w with
  | none => exact hkeep
  | some w =>
    rw [write_some]
    split
    · next heq => exact heq ▸ hwrite w.2 (by rw [heq])
    · exact hkeep

/-- What holds between any two threads still does after a step, if it holds between
what the step goes on with or starts and each other thread. -/
theorem pairwise_apply {R : Thread → Thread → Prop} (hsymm : ∀ th th', R th th' → R th' th)
    (hold : ∀ t t' th th', s.threads t = some th → s.threads t' = some th' → t ≠ t' → R th th')
    (hnew : ∀ n, e.next = some n ∨ e.spawn = some n → ∀ t' th', t' ≠ t →
      s.threads t' = some th' → R n th')
    (hboth : ∀ n m, e.next = some n → e.spawn = some m → R n m) {t₁ t₂ : Nat} {th₁ th₂ : Thread}
    (hth₁ : (s.apply t e).threads t₁ = some th₁) (hth₂ : (s.apply t e).threads t₂ = some th₂)
    (hne : t₁ ≠ t₂) : R th₁ th₂ := by
  rcases threads_apply hth₁ with ⟨rfl, hn₁⟩ | ⟨rfl, hn₁⟩ | ⟨hne₁, hold₁⟩
  · rcases threads_apply hth₂ with ⟨rfl, -⟩ | ⟨-, hn₂⟩ | ⟨hne₂, hold₂⟩
    · exact absurd rfl hne
    · exact hboth th₁ th₂ hn₁ hn₂
    · exact hnew th₁ (.inl hn₁) t₂ th₂ hne₂ hold₂
  · rcases threads_apply hth₂ with ⟨-, hn₂⟩ | ⟨rfl, -⟩ | ⟨hne₂, hold₂⟩
    · exact hsymm th₂ th₁ (hboth th₂ th₁ hn₂ hn₁)
    · exact absurd rfl hne
    · exact hnew th₁ (.inr hn₁) t₂ th₂ hne₂ hold₂
  · rcases threads_apply hth₂ with ⟨-, hn₂⟩ | ⟨-, hn₂⟩ | ⟨-, hold₂⟩
    · exact hsymm th₂ th₁ (hnew th₂ (.inl hn₂) t₁ th₁ hne₁ hold₁)
    · exact hsymm th₂ th₁ (hnew th₂ (.inr hn₂) t₁ th₁ hne₁ hold₁)
    · exact hold t₁ t₂ th₁ th₂ hold₁ hold₂ hne

end Sys

def smooth : Choice := ⟨true, 0, []⟩

/-- The thread makes `n` steps. -/
def steps (t n : Nat) : List Action := List.replicate n (.advance t smooth)

def claimSteps : Backend → Nat
  | .qemu => 1
  | .firecracker => 4

def webId : Text := "5f0c1a9e27b4".toList

def dbId : Text := "c83d60f1a7e2".toList

/-- A VM with the policy `always` is created and started by the thread `t`. -/
def started (backend : Backend) (name id : Text) (t : Nat) : List Action :=
  [.create ⟨name, .always, 0⟩ id, .call .start id] ++ steps t (claimSteps backend + 6)

/-- The restart of the thread wakes up and comes to create the replacement. -/
def woken (t : Nat) : Backend → List Action
  | .qemu => steps t 1
  | .firecracker => steps t 6

end Jerboa.Vm.Lifecycle
