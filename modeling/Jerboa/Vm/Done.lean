import Jerboa.Lib.Run
import Jerboa.Vm.Restore

/-!
# The channel `Done`

Who waits for a VM waits on its channel `Done`, which is closed when the VM
stops and renewed when a snapshot is restored in place.  Several functions write
the state of a VM directly, each in a critical section of its own; a step of the
model is one such section, so that the steps of a run are the points at which
the VM's mutex is free.

A daemon first reads the VMs and finishes interrupted restores, and then serves
requests.  Until it serves, the only other goroutines that write to a VM are the
monitors of the processes it has adopted.
-/

namespace Jerboa.Vm.Done

open Function Lib.Run Net.Address

variable {Public : Type}

/-- A VM object: its state and its current channel.  `adopted` says that a
monitor watches a process the daemon did not start. -/
structure Obj where
  state : StateText
  done : Nat
  adopted : Bool
deriving DecidableEq

/-- The memory of a daemon.  VM objects and channels are numbered in the order
they are made, channels throughout all processes. -/
structure Heap where
  objs : Nat → Option Obj
  nobjs : Nat
  closed : Nat → Bool
  nchans : Nat
  twice : Bool
  serving : Bool
  /-- `recoverRestore` has seen that this VM is restoring and its process
  runs, and is about to write that. -/
  adopting : Option Nat

inductive Reading (Public : Type) where
  | restore (probe : Probe) (now : Time) (st : VmState Public)
  | migrate (now : Time) (st : VmState Public)

def Reading.vm : Reading Public → VM Public
  | .restore probe now st => (FileStore.restoreState probe now st).1
  | .migrate now st => migratedVM now st

namespace Heap

def init : Heap := ⟨fun _ => none, 0, fun _ => false, 0, false, false, none⟩

def set (h : Heap) (v : Nat) (o : Obj) : Heap :=
  { h with objs := update h.objs v (some o) }

def close (h : Heap) (c : Nat) : Heap :=
  if h.closed c then { h with twice := true }
  else { h with closed := update h.closed c true }

/-- A new VM object with a new channel. -/
def alloc (h : Heap) (state : StateText) (adopted : Bool) : Heap :=
  { h with
    objs := update h.objs h.nobjs (some ⟨state, h.nchans, adopted⟩)
    nobjs := h.nobjs + 1
    closed := update h.closed h.nchans false
    nchans := h.nchans + 1 }

def load (h : Heap) (r : Reading Public) : Heap :=
  let h' := h.alloc r.vm.state r.vm.proc.isSome
  if r.vm.doneClosed then h'.close h.nchans else h'

/-- The edges of the state machine; a text it does not know has none. -/
def edges : StateText → List Api.State
  | .known state => Api.validTransitions state
  | .unknown _ => []

def transition (h : Heap) (v : Nat) (o : Obj) (next : Api.State) : Heap :=
  if next ∈ edges o.state then
    let h := h.set v { o with state := .known next }
    if next = .stopped then h.close o.done else h
  else h

def beginRestore (h : Heap) (v : Nat) (o : Obj) : Heap :=
  if o.state = .known .stopped then
    { h.set v { o with state := .known .restoring, done := h.nchans } with
      closed := update h.closed h.nchans false
      nchans := h.nchans + 1 }
  else h

def rollbackRestore (h : Heap) (v : Nat) (o : Obj) : Heap :=
  let h := h.set v { o with state := .known .stopped }
  if h.closed o.done then h else h.close o.done

def abandonRestore (h : Heap) (v : Nat) (o : Obj) : Heap :=
  if o.state = .known .restoring then (h.set v { o with state := .known .stopped }).close o.done
  else h

def adopt (h : Heap) (v : Nat) (o : Obj) : Heap :=
  { h.set v { o with state := .known .running, adopted := true } with adopting := none }

end Heap

/-- The critical sections, and the two phases of a daemon. -/
inductive Action (Public : Type) where
  | boot (read : List (Reading Public))
  | serve
  | create
  | transition (v : Nat) (next : Api.State)
  | beginRestore (v : Nat)
  | rollbackRestore (v : Nat)
  | readRestoring (v : Nat)
  | adopt (v : Nat)
  | abandonRestore (v : Nat)

def withObj (h : Heap) (v : Nat) (f : Obj → Heap) : Heap :=
  match h.objs v with
  | some o => f o
  | none => h

def step (h : Heap) : Action Public → Heap
  | .boot read =>
    read.foldl Heap.load { h with objs := fun _ => none, serving := false, adopting := none }
  | .serve => if h.adopting = none then { h with serving := true } else h
  | .create => if h.serving then h.alloc (.known .created) false else h
  | .transition v next =>
    withObj h v fun o => if h.serving ∨ o.adopted then h.transition v o next else h
  | .beginRestore v => withObj h v fun o => if h.serving then h.beginRestore v o else h
  | .rollbackRestore v => withObj h v fun o => if h.serving then h.rollbackRestore v o else h
  | .readRestoring v =>
    -- Recovery works on one VM after the other.
    withObj h v fun o =>
      if h.serving = false ∧ h.adopting = none ∧ o.state = .known .restoring then
        { h with adopting := some v }
      else h
  | .adopt v => withObj h v fun o => if h.adopting = some v then h.adopt v o else h
  | .abandonRestore v =>
    withObj h v fun o => if h.adopting = none then h.abandonRestore v o else h

/-! ## The invariant -/

structure Inv (h : Heap) : Prop where
  objBound : ∀ v o, h.objs v = some o → v < h.nobjs
  chanBound : ∀ v o, h.objs v = some o → o.done < h.nchans
  own : ∀ v w o p, h.objs v = some o → h.objs w = some p → o.done = p.done → v = w
  done : ∀ v o, h.objs v = some o → (h.closed o.done = true ↔ o.state = .known .stopped)
  once : h.twice = false
  /-- Before requests are served, no VM with a monitor is restoring. -/
  quiet : h.serving = false → ∀ v o, h.objs v = some o → o.adopted = true →
    o.state ≠ .known .restoring
  adopting : ∀ v, h.adopting = some v →
    h.serving = false ∧ ∃ o, h.objs v = some o ∧ o.state = .known .restoring

variable {h : Heap}

/-- The one way objects and channels change: an object is written, and with it
its channel, which no other object has. -/
theorem Inv.write (hinv : Inv h) {v : Nat} {o : Obj} {b : Bool} {n m : Nat} (hn : h.nobjs ≤ n)
    (hv : v < n) (hm : h.nchans ≤ m) (hchan : o.done < m)
    (hown : ∀ w p, w ≠ v → h.objs w = some p → p.done ≠ o.done)
    (hdone : b = true ↔ o.state = .known .stopped)
    (hquiet : h.serving = false → o.adopted = true → o.state ≠ .known .restoring)
    (hadopting : h.adopting ≠ some v) :
    Inv { h with
      objs := update h.objs v (some o)
      nobjs := n
      closed := update h.closed o.done b
      nchans := m } := by
  have hobj : ∀ w p, update h.objs v (some o) w = some p →
      w = v ∧ p = o ∨ w ≠ v ∧ h.objs w = some p := by
    intro w p hp
    by_cases hw : w = v
    · subst hw
      rw [update_self] at hp
      cases hp
      exact .inl ⟨rfl, rfl⟩
    · rw [update_of_ne hw] at hp
      exact .inr ⟨hw, hp⟩
  constructor
  case objBound =>
    intro w p hp
    rcases hobj w p hp with ⟨rfl, -⟩ | ⟨-, hp⟩
    · exact hv
    · exact (hinv.objBound w p hp).trans_le hn
  case chanBound =>
    intro w p hp
    rcases hobj w p hp with ⟨-, rfl⟩ | ⟨-, hp⟩
    · exact hchan
    · exact (hinv.chanBound w p hp).trans_le hm
  case own =>
    intro w x p q hp hq hsame
    rcases hobj w p hp with ⟨hw, hpo⟩ | ⟨hw, hold⟩
    · rcases hobj x q hq with ⟨hx, -⟩ | ⟨hx, hold'⟩
      · rw [hw, hx]
      · exact absurd (hpo ▸ hsame).symm (hown x q hx hold')
    · rcases hobj x q hq with ⟨-, hqo⟩ | ⟨-, hold'⟩
      · exact absurd (hqo ▸ hsame) (hown w p hw hold)
      · exact hinv.own w x p q hold hold' hsame
  case done =>
    intro w p hp
    rcases hobj w p hp with ⟨rfl, rfl⟩ | ⟨hw, hp⟩
    · rw [← hdone]
      simp
    · simp only [update_of_ne (hown w p hw hp)]
      exact hinv.done w p hp
  case once => exact hinv.once
  case quiet =>
    intro hserving w p hp hadopted
    rcases hobj w p hp with ⟨rfl, rfl⟩ | ⟨-, hp⟩
    · exact hquiet hserving hadopted
    · exact hinv.quiet hserving w p hp hadopted
  case adopting =>
    intro w hw
    have hwv : w ≠ v := by
      rintro rfl
      exact hadopting hw
    obtain ⟨hserving, p, hp, hstate⟩ := hinv.adopting w hw
    exact ⟨hserving, p, by simpa only [update_of_ne hwv] using hp, hstate⟩

namespace Inv

variable {h : Heap} {v : Nat} {o : Obj}

section

variable (hinv : Inv h)
include hinv

theorem notMem_new : h.adopting ≠ some h.nobjs := by
  intro hadopting
  obtain ⟨-, p, hp, -⟩ := hinv.adopting _ hadopting
  exact absurd (hinv.objBound _ _ hp) (lt_irrefl _)

theorem setState (hv : h.objs v = some o) {state : StateText} {adopted : Bool}
    (hstate : state = .known .stopped ↔ o.state = .known .stopped)
    (hquiet : h.serving = false → adopted = true → state ≠ .known .restoring)
    (hadopting : h.adopting ≠ some v) :
    Inv (h.set v { o with state := state, adopted := adopted }) := by
  have hwrite := hinv.write (v := v) (o := { o with state := state, adopted := adopted })
    (b := h.closed o.done) le_rfl (hinv.objBound v o hv) le_rfl (hinv.chanBound v o hv)
    (fun w p hw hp hdone => hw (hinv.own w v p o hp hv hdone))
    ((hinv.done v o hv).trans hstate.symm) hquiet hadopting
  simp only [update_eq_self] at hwrite
  exact hwrite

theorem stop (hv : h.objs v = some o) (hstate : o.state ≠ .known .stopped)
    (hadopting : h.adopting ≠ some v) :
    Inv ((h.set v { o with state := .known .stopped }).close o.done) := by
  have hopen : h.closed o.done = false := by
    rw [← Bool.not_eq_true, hinv.done v o hv]
    exact hstate
  have hwrite := hinv.write (v := v) (o := { o with state := .known .stopped }) (b := true) le_rfl
    (hinv.objBound v o hv) le_rfl (hinv.chanBound v o hv)
    (fun w p hw hp hdone => hw (hinv.own w v p o hp hv hdone)) (by simp) (by simp) hadopting
  unfold Heap.close
  rw [if_neg (by simp [Heap.set, hopen])]
  exact hwrite

theorem beginRestore (hv : h.objs v = some o) (hserving : h.serving = true) :
    Inv (h.beginRestore v o) := by
  unfold Heap.beginRestore
  split_ifs
  · refine hinv.write (o := { o with state := .known .restoring, done := h.nchans }) le_rfl
      (hinv.objBound v o hv) (Nat.le_succ _) (Nat.lt_succ_self _) ?_ (by simp) ?_ ?_
    · intro w p _ hp
      exact (hinv.chanBound w p hp).ne
    · intro hnot
      simp [hserving] at hnot
    · intro hadopting
      have := (hinv.adopting v hadopting).1
      simp [hserving] at this
  · exact hinv

theorem alloc {state : StateText} {adopted : Bool}
    (hstate : state ≠ .known .stopped)
    (hquiet : h.serving = false → adopted = true → state ≠ .known .restoring) :
    Inv (h.alloc state adopted) :=
  hinv.write (o := ⟨state, h.nchans, adopted⟩) (Nat.le_succ _) (Nat.lt_succ_self _)
    (Nat.le_succ _) (Nat.lt_succ_self _) (fun w p _ hp => (hinv.chanBound w p hp).ne)
    (by simp [hstate]) hquiet hinv.notMem_new

theorem rollbackRestore (hv : h.objs v = some o) (hadopting : h.adopting ≠ some v) :
    Inv (h.rollbackRestore v o) := by
  unfold Heap.rollbackRestore
  dsimp only
  split_ifs with hclosed
  · exact hinv.setState hv (by simpa using (hinv.done v o hv).mp hclosed) (by simp) hadopting
  · exact hinv.stop hv (mt (hinv.done v o hv).mpr hclosed) hadopting

theorem transition (hv : h.objs v = some o) {next : Api.State}
    (hnext : next ≠ .restoring) (hadopting : h.adopting ≠ some v) :
    Inv (h.transition v o next) := by
  unfold Heap.transition
  by_cases hedge : next ∈ Heap.edges o.state
  · -- The only edge out of stopped is the one into restoring.
    have hfrom : o.state ≠ .known .stopped := by
      intro hstate
      rw [hstate] at hedge
      simp [Heap.edges, Api.validTransitions, hnext] at hedge
    rw [if_pos hedge]
    split_ifs with hstopped
    · subst hstopped
      exact hinv.stop hv hfrom hadopting
    · exact hinv.setState hv (by simp [hfrom, hstopped]) (by simp [hnext]) hadopting
  · rw [if_neg hedge]
    exact hinv

theorem abandonRestore (hv : h.objs v = some o) (hadopting : h.adopting ≠ some v) :
    Inv (h.abandonRestore v o) := by
  unfold Heap.abandonRestore
  split_ifs with hstate
  · exact hinv.stop hv (by simp [hstate]) hadopting
  · exact hinv

theorem setAdopting {adopting : Option Nat}
    (hadopting : ∀ w, adopting = some w →
      h.serving = false ∧ ∃ p, h.objs w = some p ∧ p.state = .known .restoring) :
    Inv { h with adopting := adopting } :=
  { hinv with adopting := hadopting }

theorem adopt (hv : h.objs v = some o) (hadopting : h.adopting = some v) :
    Inv (h.adopt v o) := by
  obtain ⟨-, p, hp, hstate⟩ := hinv.adopting v hadopting
  rw [hv] at hp
  cases hp
  have hidle : Inv { h with adopting := none } := hinv.setAdopting fun _ hw => nomatch hw
  have hset : Inv ({ h with adopting := none }.set v
      { o with state := .known .running, adopted := true }) :=
    hidle.setState hv (by simp [hstate]) (by simp) (by simp)
  exact hset

end

end Inv

theorem Reading.vm_spec (r : Reading Public) :
    (r.vm.doneClosed = true ↔ r.vm.state = .known .stopped) ∧
      (r.vm.proc.isSome = true → r.vm.state = .known .running) := by
  cases r with
  | restore probe now st =>
    obtain ⟨id, config, state, createdAt, startedAt, stoppedAt, mark, health, count, pid⟩ := st
    rcases state with (_ | _ | _ | _ | _ | _) | text <;>
      by_cases hsurvived : probe.survived pid id <;>
      simp [Reading.vm, FileStore.restoreState, recovered, recoverVM, StateText.active, hsurvived]
  | migrate now st =>
    obtain ⟨id, config, state, createdAt, startedAt, stoppedAt, mark, health, count, pid⟩ := st
    rcases state with (_ | _ | _ | _ | _ | _) | text <;> cases mark <;>
      simp [Reading.vm, migratedVM]

theorem Inv.load (hinv : Inv h) (r : Reading Public) : Inv (h.load r) := by
  obtain ⟨hdone, hproc⟩ := r.vm_spec
  have hquiet : h.serving = false → r.vm.proc.isSome = true → r.vm.state ≠ .known .restoring := by
    intro _ hsome
    simp [hproc hsome]
  unfold Heap.load
  split_ifs with hclosed
  · have hwrite := hinv.write (v := h.nobjs) (o := ⟨r.vm.state, h.nchans, r.vm.proc.isSome⟩)
      (b := true) (Nat.le_succ _) (Nat.lt_succ_self _) (Nat.le_succ _) (Nat.lt_succ_self _)
      (fun w p _ hp => (hinv.chanBound w p hp).ne) (by simp [hdone.mp hclosed]) hquiet
      hinv.notMem_new
    unfold Heap.close
    rw [if_neg (by simp [Heap.alloc])]
    simp only [Heap.alloc, update_idem]
    exact hwrite
  · exact hinv.alloc (mt hdone.mpr hclosed) hquiet

theorem Inv.boot (hinv : Inv h) (read : List (Reading Public)) :
    Inv (step h (.boot read)) := by
  have hempty : Inv { h with objs := fun _ => none, serving := false, adopting := none } :=
    { objBound := fun _ _ hv => nomatch hv
      chanBound := fun _ _ hv => nomatch hv
      own := fun _ _ _ _ hv => nomatch hv
      done := fun _ _ hv => nomatch hv
      once := hinv.once
      quiet := fun _ _ _ hv => nomatch hv
      adopting := fun _ hv => nomatch hv }
  have hloads : ∀ (read : List (Reading Public)) {h : Heap}, Inv h →
      Inv (read.foldl Heap.load h) := by
    intro read
    induction read with
    | nil => exact fun hinv => hinv
    | cons r read ih => exact fun hinv => ih (hinv.load r)
  exact hloads read hempty

theorem inv_withObj (hinv : Inv h) {v : Nat} {f : Obj → Heap}
    (hf : ∀ o, h.objs v = some o → Inv (f o)) : Inv (withObj h v f) := by
  unfold withObj
  split
  · rename_i o hv
    exact hf o hv
  · exact hinv

/-- The callers of `transition` never ask for restoring: that edge is
`beginRestore`'s. -/
def Promised : Action Public → Prop
  | .transition _ next => next ≠ .restoring
  | _ => True

theorem inv_step {a : Action Public} (hinv : Inv h) (ha : Promised a) :
    Inv (step h a) := by
  cases a with
  | boot read => exact hinv.boot read
  | serve =>
    dsimp only [step]
    split_ifs with hidle
    · exact
        { hinv with
          quiet := fun hserving => nomatch hserving
          adopting := fun w hw => by simp [hidle] at hw }
    · exact hinv
  | create =>
    dsimp only [step]
    split_ifs with hserving
    · exact hinv.alloc (by simp) (by simp)
    · exact hinv
  | transition v =>
    refine inv_withObj hinv fun o hv => ?_
    split_ifs with hallowed
    · apply hinv.transition hv ha
      intro hadopting
      obtain ⟨hserving, p, hp, hstate⟩ := hinv.adopting v hadopting
      rw [hv] at hp
      cases hp
      have hadopted : o.adopted = true := by simpa [hserving] using hallowed
      exact hinv.quiet hserving v o hv hadopted hstate
    · exact hinv
  | beginRestore =>
    refine inv_withObj hinv fun o hv => ?_
    split_ifs with hserving
    · exact hinv.beginRestore hv hserving
    · exact hinv
  | rollbackRestore v =>
    refine inv_withObj hinv fun o hv => ?_
    split_ifs with hserving
    · apply hinv.rollbackRestore hv
      intro hadopting
      have := (hinv.adopting v hadopting).1
      simp [hserving] at this
    · exact hinv
  | readRestoring =>
    refine inv_withObj hinv fun o hv => ?_
    split_ifs with hread
    · refine hinv.setAdopting fun w hw => ?_
      cases hw
      exact ⟨hread.1, o, hv, hread.2.2⟩
    · exact hinv
  | adopt =>
    refine inv_withObj hinv fun o hv => ?_
    split_ifs with hadopting
    · exact hinv.adopt hv hadopting
    · exact hinv
  | abandonRestore =>
    refine inv_withObj hinv fun o hv => ?_
    split_ifs with hidle
    · exact hinv.abandonRestore hv (by simp [hidle])
    · exact hinv

theorem inv_init : Inv Heap.init :=
  { objBound := fun _ _ hv => nomatch hv
    chanBound := fun _ _ hv => nomatch hv
    own := fun _ _ _ _ hv => nomatch hv
    done := fun _ _ hv => nomatch hv
    once := rfl
    quiet := fun _ _ _ hv => nomatch hv
    adopting := fun _ hv => nomatch hv }

/-- In every run, whenever no critical section is being executed, the current
channel of every VM is closed exactly if the VM is stopped, and no channel was
closed twice. -/
theorem done_closed_iff_stopped (acts : List (Action Public)) (hacts : ∀ a ∈ acts, Promised a) :
    (∀ v o, (run step Heap.init acts).objs v = some o →
        ((run step Heap.init acts).closed o.done = true ↔ o.state = .known .stopped)) ∧
      (run step Heap.init acts).twice = false := by
  have hinv : Inv (run step Heap.init acts) :=
    run_invariant_of_allSteps (fun _ _ hinv ha => inv_step hinv ha) inv_init
      (allSteps_of_forall hacts)
  exact ⟨hinv.done, hinv.once⟩

/-- A VM whose restore a daemon left unfinished: the next one finds its process
running, adopts it, and the guest exits; then a snapshot is restored in place
and rolled back. -/
def adoptedRun : List (Action Text) :=
  [.boot [.restore .dead 0
      { id := [], config := [], state := .known .restoring, createdAt := 0, startedAt := none
        stoppedAt := none, daemonRecovered := false, healthStatus := [], restartCount := 0
        pid := 7 }],
    .readRestoring 0, .adopt 0, .transition 0 .stopped, .serve, .beginRestore 0,
    .rollbackRestore 0]

theorem done_closed_adopted :
    (∀ v o, (run step Heap.init adoptedRun).objs v = some o →
        ((run step Heap.init adoptedRun).closed o.done = true ↔ o.state = .known .stopped)) ∧
      (run step Heap.init adoptedRun).nchans = 2 :=
  ⟨(done_closed_iff_stopped adoptedRun (by
      simp [adoptedRun, Promised])).1, by decide +kernel⟩

end Jerboa.Vm.Done
