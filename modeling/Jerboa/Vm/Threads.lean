import Jerboa.Vm.Lifecycle

/-!
# The threads of a manager

What a step makes of the thread that takes it, which threads it starts, and
what it may write: every invariant of the lifecycles is proved from these
lemmas.  A thread keeps a shape: which operation is at which step, and which
steps Firecracker makes under a claim.
-/

namespace Jerboa.Vm.Lifecycle

open Net.Address Lib.Run
open Jerboa.Api (State validTransitions)

variable {backend : Backend} {s : Sys} {t : Nat} {th : Thread} {c : Choice}

def BodyPc.ops : BodyPc → List Op
  | .toStarting | .launch | .toRunning | .publish => [.start]
  | .spawnMonitor _ => [.start, .snapshotRestore]
  | .checkStopped | .toStopping | .mark | .signal => [.stop, .kill]
  | .checkRemovable | .delete => [.remove]
  | .checkRunning | .capture | .forceStop | .forceMark => [.snapshotCreate]
  | .checkPending | .checkRestorable | .verify | .beginRestore | .load | .commit | .rollback =>
    [.snapshotRestore]
  | .wait | .readMark _ | .toStopped _ _ | .decide _ _ => [.monitor]
  | .sleep | .checkOld | .create | .setCount _ | .removeOld | .clearPending => [.restart]
  | .finish _ => [.start, .stop, .kill, .remove, .snapshotCreate, .snapshotRestore, .restart]

def BodyPc.claimed : BodyPc → Bool
  | .wait | .readMark _ | .toStopped _ _ | .decide _ _ | .sleep | .clearPending => false
  | _ => true

/-! ## Steps inside a function -/

/-- What a step inside a function does to its VM. -/
inductive Change where
  | keep
  | move (next : State)
  | mark
  | launched
  | beginRestore
  | rollback

def Change.Allowed (v : Obj) : Change → Prop
  | .move next => next ∈ validTransitions v.state
  | .beginRestore => v.state = .stopped
  | _ => True

def Change.write (r : Ref) (v : Obj) : Change → Option (Ref × (Obj → Obj))
  | .keep => none
  | .move next => some (r, fun _ => { v with state := next })
  | .mark => setExplicitStop r
  | .launched => some (r, fun v => { v with proc := true })
  | .beginRestore => some (r, fun v =>
      { v with state := .restoring, explicitStop := false, proc := false, stopped := false })
  | .rollback => some (r, fun v => { v with state := .stopped, proc := false })

/-- Where the steps inside a function lead, and with what change of the VM.  The
VM that `create` makes is `fresh`. -/
def BodyPc.edges (fresh : Ref) : BodyPc → List (Change × BodyPc)
  | .toStarting => [(.move .starting, .launch), (.keep, .finish false)]
  | .launch =>
    [(.launched, .toRunning), (.move .stopped, .finish false), (.keep, .finish false)]
  | .toRunning => [(.move .running, .publish), (.mark, .spawnMonitor false)]
  | .publish => [(.keep, .spawnMonitor true), (.mark, .spawnMonitor false)]
  | .spawnMonitor ok => [(.keep, .finish ok)]
  | .checkStopped => [(.keep, .finish true), (.keep, .toStopping)]
  | .toStopping => [(.move .stopping, .mark), (.keep, .finish false)]
  | .mark => [(.mark, .signal)]
  | .signal | .delete => [(.keep, .finish true), (.keep, .finish false)]
  | .checkRemovable => [(.keep, .delete), (.keep, .finish false)]
  | .checkRunning => [(.keep, .capture), (.keep, .finish false)]
  | .capture => [(.keep, .finish true), (.keep, .forceStop), (.keep, .finish false)]
  | .forceStop => [(.move .stopping, .forceMark), (.keep, .forceMark)]
  | .forceMark => [(.mark, .finish false)]
  | .checkPending => [(.keep, .checkRestorable), (.keep, .finish false)]
  | .checkRestorable => [(.keep, .verify), (.keep, .finish false)]
  | .verify => [(.keep, .beginRestore), (.keep, .finish false)]
  | .beginRestore => [(.beginRestore, .load), (.keep, .finish false)]
  | .load => [(.launched, .commit), (.keep, .rollback)]
  | .commit =>
    [(.move .running, .spawnMonitor true), (.move .running, .rollback), (.keep, .rollback)]
  | .rollback => [(.rollback, .finish false)]
  | .wait => [(.keep, .readMark true), (.keep, .readMark false)]
  | .readMark failed => [(.keep, .toStopped failed true), (.keep, .toStopped failed false)]
  | .toStopped failed explicit =>
    [(.move .stopped, .decide failed explicit), (.keep, .decide failed explicit)]
  | .checkOld => [(.keep, .create), (.keep, .finish false)]
  | .create => [(.keep, .setCount fresh), (.keep, .finish false)]
  | .removeOld => [(.keep, .finish true)]
  | .decide _ _ | .sleep | .setCount _ | .clearPending | .finish _ => []

structure Goes (s : Sys) (th : Thread) (r : Ref) (pc : BodyPc) (e : Effect) (ch : Change)
    (pc' : BodyPc) : Prop where
  edge : (ch, pc') ∈ pc.edges s.nextRef
  next : e.next = th.goto pc'
  write : e.write = ch.write r (s.objs r)
  claims : e.claims = .keep
  allowed : ch.Allowed (s.objs r)

theorem goes_planBody (backend : Backend) (s : Sys) (th : Thread) (c : Choice) (r : Ref)
    {pc : BodyPc} (hpc : pc.edges s.nextRef ≠ []) :
    ∃ ch pc', Goes s th r pc (planBody backend s th r (s.objs r) c pc) ch pc' := by
  have hmove : ∀ {next : State} {yes no : BodyPc}, (.move next, yes) ∈ pc.edges s.nextRef →
      (.keep, no) ∈ pc.edges s.nextRef →
      ∃ ch pc', Goes s th r pc (th.moveTo r (s.objs r) next yes no) ch pc' := by
    intro next yes no hyes hno
    unfold Thread.moveTo Obj.transition
    split
    · next v' hv' =>
      split at hv'
      · next hvalid =>
        cases hv'
        exact ⟨_, _, hyes, rfl, rfl, rfl, hvalid⟩
      · cases hv'
    · exact ⟨_, _, hno, rfl, rfl, rfl, trivial⟩
  cases pc with
  | decide | sleep | setCount | clearPending | finish => exact absurd rfl hpc
  | toStarting =>
    simp only [planBody]
    split
    · exact hmove (by simp [BodyPc.edges]) (by simp [BodyPc.edges])
    · exact ⟨.keep, _, by simp [BodyPc.edges], rfl, rfl, rfl, trivial⟩
  | launch =>
    simp only [planBody]
    split
    · exact ⟨.launched, _, by simp [BodyPc.edges], rfl, rfl, rfl, trivial⟩
    · exact hmove (by simp [BodyPc.edges]) (by simp [BodyPc.edges])
  | toRunning =>
    simp only [planBody, Obj.transition]
    split
    · next v' hv' =>
      split at hv'
      · split at hv'
        · next hvalid =>
          cases hv'
          exact ⟨.move .running, _, by simp [BodyPc.edges], rfl, rfl, rfl, hvalid⟩
        · cases hv'
      · cases hv'
    · exact ⟨.mark, _, by simp [BodyPc.edges], rfl, rfl, rfl, trivial⟩
  | publish =>
    simp only [planBody]
    split
    · exact ⟨.keep, _, by simp [BodyPc.edges], rfl, rfl, rfl, trivial⟩
    · exact ⟨.mark, _, by simp [BodyPc.edges], rfl, rfl, rfl, trivial⟩
  | beginRestore =>
    simp only [planBody]
    split
    · next hstopped =>
      exact ⟨.beginRestore, _, by simp [BodyPc.edges], rfl, rfl, rfl, hstopped⟩
    · exact ⟨.keep, _, by simp [BodyPc.edges], rfl, rfl, rfl, trivial⟩
  | load =>
    simp only [planBody]
    split
    · exact ⟨.launched, _, by simp [BodyPc.edges], rfl, rfl, rfl, trivial⟩
    · exact ⟨.keep, _, by simp [BodyPc.edges], rfl, rfl, rfl, trivial⟩
  | delete | create =>
    simp only [planBody]
    split <;> exact ⟨.keep, _, by simp [BodyPc.edges], rfl, rfl, rfl, trivial⟩
  | capture =>
    simp only [planBody]
    split
    · exact ⟨.keep, _, by simp [BodyPc.edges], rfl, rfl, rfl, trivial⟩
    · split <;> exact ⟨.keep, _, by simp [BodyPc.edges], rfl, rfl, rfl, trivial⟩
  | checkStopped | checkRemovable | checkRunning | checkPending | checkRestorable | verify
  | checkOld =>
    refine ⟨.keep, _, ?_, rfl, rfl, rfl, trivial⟩
    split <;> simp [BodyPc.edges]
  | toStopping | forceStop | toStopped =>
    exact hmove (by simp [BodyPc.edges]) (by simp [BodyPc.edges])
  | commit => exact hmove (by split <;> simp [BodyPc.edges]) (by simp [BodyPc.edges])
  | mark | forceMark => exact ⟨.mark, _, by simp [BodyPc.edges], rfl, rfl, rfl, trivial⟩
  | rollback => exact ⟨.rollback, _, by simp [BodyPc.edges], rfl, rfl, rfl, trivial⟩
  | signal =>
    refine ⟨.keep, .finish (!(s.objs r).proc || c.ok), ?_, rfl, rfl, rfl, trivial⟩
    cases !(s.objs r).proc || c.ok <;> simp [BodyPc.edges]
  | wait | readMark | removeOld | spawnMonitor =>
    exact ⟨.keep, _, by simp [BodyPc.edges], rfl, rfl, rfl, trivial⟩

theorem ops_of_edge {fresh : Ref} {pc pc' : BodyPc} {ch : Change}
    (h : (ch, pc') ∈ pc.edges fresh) : pc.ops ⊆ pc'.ops ∧ pc'.claimed = pc.claimed := by
  have hall : ∀ e ∈ pc.edges fresh, pc.ops ⊆ e.2.ops ∧ e.2.claimed = pc.claimed := by
    cases pc <;> simp [BodyPc.edges, BodyPc.ops, BodyPc.claimed]
  exact hall _ h

/-! ## What becomes of a thread -/

inductive Turn (backend : Backend) (s : Sys) (th : Thread) (c : Choice) : Thread → Prop where
  | stay (r : Ref) (pc pc' : BodyPc) (href : th.ref = some r) (hpc : th.pc = .body pc)
      (ch : Change) (hgoes : Goes s th r pc (planBody backend s th r (s.objs r) c pc) ch pc') :
      Turn backend s th c { th with pc := .body pc' }
  | lookup (key : Text) (r : Ref) (hpc : th.pc = .resolve key) (hfc : backend = .firecracker)
      (hres : s.resolve key c.pick = some r) : Turn backend s th c { th with pc := .claim r }
  | claim (r : Ref) (hpc : th.pc = .claim r) (hfree : s.claims (s.objs r).id = none) :
      Turn backend s th c { th with claimed := some (s.objs r).id, pc := .recheck r }
  | recheck (r : Ref) (hpc : th.pc = .recheck r)
      (hlookup : s.vms.lookup (s.objs r).id = some r) :
      Turn backend s th c { th with pc := .checkRestoring r }
  | enter (r : Ref) (n : Thread) (hn : th.enter r = some n)
      (hpc : (∃ key, th.pc = .resolve key ∧ backend = .qemu ∧
          s.resolve key c.pick = some r) ∨ th.pc = .checkRestoring r) :
      Turn backend s th c n
  | restart (r : Ref) (failed explicit : Bool) (href : th.ref = some r)
      (hpc : th.pc = .body (.decide failed explicit))
      (hshould : shouldRestart (s.objs r) failed explicit = true) :
      Turn backend s th c ⟨.restart, some r, none, none, .body .sleep⟩
  | wake (r : Ref) (pc : Pc) (href : th.ref = some r) (hpc : th.pc = .body .sleep)
      (hpc' : backend = .qemu ∧ pc = .body .create ∨
        backend = .firecracker ∧ pc = .resolve (s.objs r).id) :
      Turn backend s th c { th with pc := pc }
  | start (r replacement : Ref) (href : th.ref = some r)
      (hpc : th.pc = .body (.setCount replacement)) :
      Turn backend s th c
        ⟨.start, none, none, some ⟨r, th.claimed⟩, .resolve (s.objs replacement).id⟩
  | return (ok : Bool) (n : Thread) (hn : th.return backend ok = some n)
      (hpc : (ok = false ∧ ∀ pc, th.pc ≠ .body pc) ∨ th.pc = .body (.finish ok)) :
      Turn backend s th c n

variable {n : Thread}

theorem turn_plan (hn : (plan backend s th c).next = some n) :
    Turn backend s th c n := by
  have hfail (hn : th.return backend false = some n) (hpc : ∀ pc, th.pc ≠ .body pc) :
      Turn backend s th c n := .return false n hn (.inl ⟨rfl, hpc⟩)
  unfold plan at hn
  cases hpc : th.pc with
  | resolve key =>
    simp only [hpc] at hn
    split at hn
    · exact hfail hn (by simp [hpc])
    · next r hres =>
      cases backend with
      | qemu => exact .enter r n hn (.inl ⟨key, hpc, rfl, hres⟩)
      | firecracker =>
        cases hn
        exact .lookup key r hpc rfl hres
  | claim r =>
    simp only [hpc] at hn
    split at hn
    · exact hfail hn (by simp [hpc])
    · next hfree =>
      cases hn
      exact .claim r hpc hfree
  | recheck r =>
    simp only [hpc] at hn
    split at hn
    · next hlookup =>
      cases hn
      exact .recheck r hpc hlookup
    · exact hfail hn (by simp [hpc])
  | checkRestoring r =>
    simp only [hpc] at hn
    split at hn
    · exact hfail hn (by simp [hpc])
    · exact .enter r n hn (.inr hpc)
  | body pc =>
    cases href : th.ref with
    | none =>
      simp only [hpc, href] at hn
      cases hn
    | some r =>
      simp only [hpc, href] at hn
      rcases eq_or_ne (pc.edges s.nextRef) [] with hnil | hne
      · cases pc with
        | decide failed explicit =>
          simp only [planBody] at hn
          split at hn
          · next hshould =>
            cases hn
            exact .restart r failed explicit href hpc hshould
          · cases hn
        | sleep =>
          cases backend with
          | qemu =>
            cases hn
            exact .wake r _ href hpc (.inl ⟨rfl, rfl⟩)
          | firecracker =>
            cases hn
            exact .wake r _ href hpc (.inr ⟨rfl, rfl⟩)
        | setCount replacement =>
          cases hn
          exact .start r replacement href hpc
        | clearPending => cases hn
        | finish ok => exact .return ok n hn (.inr hpc)
        | _ => cases hnil
      · obtain ⟨ch, pc', hgoes⟩ := goes_planBody backend s th c r hne
        cases hgoes.next.symm.trans hn
        exact .stay r pc pc' href hpc ch hgoes

theorem return_eq_some {ok : Bool} (hn : th.return backend ok = some n) :
    (∃ caller, th.caller = some caller ∧ n = ⟨.restart, some caller.old, caller.claimed, none,
        .body (if ok then .removeOld else .finish false)⟩) ∨
      th.caller = none ∧ th.op = .restart ∧ backend = .firecracker ∧
        n = { th with claimed := none, pc := .body .clearPending } := by
  unfold Thread.return at hn
  split at hn
  · next caller hcaller => exact .inl ⟨caller, hcaller, (Option.some.inj hn).symm⟩
  · next hcaller =>
    split at hn
    · next hrestart => exact .inr ⟨hcaller, hrestart.1, hrestart.2, (Option.some.inj hn).symm⟩
    · cases hn

/-! ## The shape of a thread -/

def Pc.Fits (backend : Backend) (th : Thread) : Pc → Prop
  | .resolve _ => th.claimed = none ∧ th.op ≠ .monitor ∧ (th.ref.isSome ↔ th.op = .restart)
  | .claim _ =>
    th.claimed = none ∧ backend = .firecracker ∧ th.op ≠ .monitor ∧
      (th.ref.isSome ↔ th.op = .restart)
  | .recheck _ | .checkRestoring _ =>
    th.claimed.isSome ∧ backend = .firecracker ∧ th.op ≠ .monitor ∧
      (th.ref.isSome ↔ th.op = .restart)
  | .body pc =>
    th.op ∈ pc.ops ∧ th.ref.isSome ∧
      (th.claimed.isSome ↔ backend = .firecracker ∧ pc.claimed = true)

structure Thread.Wf (backend : Backend) (th : Thread) : Prop where
  caller : ∀ caller, th.caller = some caller →
    th.op = .start ∧ (caller.claimed.isSome ↔ backend = .firecracker)
  snapshots : th.op = .snapshotCreate ∨ th.op = .snapshotRestore → backend = .firecracker
  fits : th.pc.Fits backend th

variable {r : Ref}

namespace Thread.Wf

section

variable (h : th.Wf backend)
include h

theorem enter (hn : th.enter r = some n)
    (hpc : (∃ key, th.pc = .resolve key ∧ backend = .qemu) ∨ th.pc = .checkRestoring r) :
    n.Wf backend := by
  have hfits := h.fits
  obtain ⟨hop, href, hclaimed⟩ : th.op ≠ .monitor ∧ (th.ref.isSome ↔ th.op = .restart) ∧
      (th.claimed.isSome ↔ backend = .firecracker) := by
    rcases hpc with ⟨key, hpc, rfl⟩ | hpc
    · rw [hpc] at hfits
      exact ⟨hfits.2.1, hfits.2.2, by simp [hfits.1]⟩
    · rw [hpc] at hfits
      exact ⟨hfits.2.2.1, hfits.2.2.2, by simp [hfits.1, hfits.2.1]⟩
  cases hn
  refine ⟨h.caller, h.snapshots, ?_, ?_, ?_⟩
  · cases hth : th.op <;> simp_all [entry, BodyPc.ops]
  · split
    · next hrestart => exact href.mpr hrestart
    · rfl
  · have hentry : (entry th.op).claimed = true := by
      cases hth : th.op <;> simp_all [entry, BodyPc.claimed]
    rw [hentry]
    simpa using hclaimed

theorem op_mem {pc : BodyPc} (hpc : th.pc = .body pc) : th.op ∈ pc.ops := by
  have hfits := h.fits
  rw [hpc] at hfits
  exact hfits.1

theorem op_eq {pc : BodyPc} {op : Op} (hpc : th.pc = .body pc) (hops : pc.ops = [op]) :
    th.op = op :=
  List.mem_singleton.mp (hops ▸ h.op_mem hpc)

theorem ref_of_restart (hop : th.op = .restart) : th.ref.isSome := by
  have hfits := h.fits
  cases hpc : th.pc with
  | resolve =>
    rw [hpc] at hfits
    exact hfits.2.2.mpr hop
  | claim | recheck | checkRestoring =>
    rw [hpc] at hfits
    exact hfits.2.2.2.mpr hop
  | body =>
    rw [hpc] at hfits
    exact hfits.2.1

theorem «return» {ok : Bool} (hn : th.return backend ok = some n) : n.Wf backend := by
  rcases return_eq_some hn with ⟨caller, hcaller, rfl⟩ | ⟨-, hop, -, rfl⟩
  · have hclaimed := (h.caller caller hcaller).2
    refine ⟨by simp, by simp, ?_⟩
    cases ok <;> exact ⟨by simp [BodyPc.ops], rfl, by simpa [BodyPc.claimed] using hclaimed⟩
  · exact ⟨h.caller, h.snapshots, by simp [BodyPc.ops, hop], h.ref_of_restart hop,
      by simp [BodyPc.claimed]⟩

theorem turn (hturn : Turn backend s th c n) : n.Wf backend := by
  have hfits := h.fits
  cases hturn with
  | stay r pc pc' href hpc ch hgoes =>
    obtain ⟨hops, hclaimed⟩ := ops_of_edge hgoes.edge
    rw [hpc] at hfits
    exact ⟨h.caller, h.snapshots, hops hfits.1, hfits.2.1, hclaimed ▸ hfits.2.2⟩
  | lookup key r hpc hfc =>
    rw [hpc] at hfits
    exact ⟨h.caller, h.snapshots, hfits.1, hfc, hfits.2⟩
  | claim r hpc =>
    rw [hpc] at hfits
    exact ⟨h.caller, h.snapshots, rfl, hfits.2⟩
  | recheck r hpc =>
    rw [hpc] at hfits
    exact ⟨h.caller, h.snapshots, hfits⟩
  | enter r n hn hpc =>
    exact h.enter hn (hpc.imp_left fun ⟨key, hpc, hqemu, _⟩ => ⟨key, hpc, hqemu⟩)
  | restart =>
    exact ⟨by simp, by simp, by simp [BodyPc.ops], rfl, by simp [BodyPc.claimed]⟩
  | wake r pc href hpc hpc' =>
    have hop : th.op = .restart := h.op_eq hpc rfl
    rw [hpc] at hfits
    have hnone : th.claimed = none := by simpa [BodyPc.claimed] using hfits.2.2
    refine ⟨h.caller, h.snapshots, ?_⟩
    rcases hpc' with ⟨rfl, rfl⟩ | ⟨rfl, rfl⟩
    · exact ⟨by simp [BodyPc.ops, hop], hfits.2.1, by simp [hnone]⟩
    · exact ⟨hnone, by simp [hop], by simp [hop, href]⟩
  | start r replacement href hpc =>
    rw [hpc] at hfits
    refine ⟨fun caller hcaller => ?_, by simp, rfl, by simp, by simp⟩
    cases hcaller
    exact ⟨rfl, by simpa [BodyPc.claimed] using hfits.2.2⟩
  | «return» ok n hn => exact h.return hn

theorem caller_eq_none (hop : th.op ≠ .start) : th.caller = none := by
  cases hc : th.caller with
  | none => rfl
  | some caller => exact absurd (h.caller caller hc).1 hop

end

end Thread.Wf

theorem wf_monitorThread (r : Ref) : (monitorThread r).Wf backend :=
  ⟨by simp [monitorThread], by simp [monitorThread], by simp [monitorThread, BodyPc.ops], rfl,
    by simp [monitorThread, BodyPc.claimed]⟩

/-! ## Threads a step starts, and what it writes -/

/-- The step starts no thread, and touches neither the store nor the restarts
that are pending. -/
def Effect.Quiet (e : Effect) : Prop := e.spawn = none ∧ e.store = .keep ∧ e.pending = none

theorem plan_outside (h : ∀ pc, th.pc ≠ .body pc) :
    (plan backend s th c).write = none ∧ (plan backend s th c).Quiet := by
  unfold plan
  cases hpc : th.pc with
  | resolve =>
    dsimp only
    split
    · exact ⟨rfl, rfl, rfl, rfl⟩
    · cases backend <;> exact ⟨rfl, rfl, rfl, rfl⟩
  | claim | recheck | checkRestoring =>
    dsimp only
    split <;> exact ⟨rfl, rfl, rfl, rfl⟩
  | body pc => exact absurd hpc (h pc)

def BodyPc.quiet : BodyPc → Bool
  | .spawnMonitor _ | .delete | .removeOld | .create | .decide _ _ | .clearPending => false
  | _ => true

theorem planBody_quiet {pc : BodyPc} (hpc : pc.quiet = true) (r : Ref) (v : Obj) :
    (planBody backend s th r v c pc).Quiet := by
  have hmove {next : State} {yes no : BodyPc} : (th.moveTo r v next yes no).Quiet := by
    unfold Thread.moveTo
    split <;> exact ⟨rfl, rfl, rfl⟩
  cases pc with
  | spawnMonitor | delete | removeOld | create | decide | clearPending => cases hpc
  | toStarting | launch =>
    simp only [planBody]
    split
    all_goals first | exact hmove | exact ⟨rfl, rfl, rfl⟩
  | toRunning | publish | capture | beginRestore | load =>
    simp only [planBody]
    split <;> exact ⟨rfl, rfl, rfl⟩
  | toStopping | forceStop | commit | toStopped => exact hmove
  | sleep => cases backend <;> exact ⟨rfl, rfl, rfl⟩
  | _ => exact ⟨rfl, rfl, rfl⟩

theorem plan_quiet (backend : Backend) (s : Sys) (th : Thread) (c : Choice) :
    (plan backend s th c).Quiet ∨
      ∃ r pc, th.ref = some r ∧ th.pc = .body pc ∧ pc.quiet = false ∧
        plan backend s th c = planBody backend s th r (s.objs r) c pc := by
  by_cases hbody : ∃ pc, th.pc = .body pc
  · obtain ⟨pc, hpc⟩ := hbody
    cases href : th.ref with
    | none => simp [plan, hpc, href, Effect.Quiet]
    | some r =>
      have hplan : plan backend s th c = planBody backend s th r (s.objs r) c pc := by
        simp only [plan, hpc, href]
      cases hquiet : pc.quiet with
      | true => exact .inl (hplan ▸ planBody_quiet hquiet r (s.objs r))
      | false => exact .inr ⟨r, pc, rfl, hpc, hquiet, hplan⟩
  · exact .inl (plan_outside fun pc hpc => hbody ⟨pc, hpc⟩).2

theorem spawn_plan (h : (plan backend s th c).spawn = some n) :
    ∃ r ok, th.ref = some r ∧ th.pc = .body (.spawnMonitor ok) ∧ n = monitorThread r := by
  rcases plan_quiet backend s th c with ⟨hnone, -⟩ | ⟨r, pc, href, hpc, hquiet, hplan⟩
  · cases hnone.symm.trans h
  · rw [hplan] at h
    cases pc with
    | spawnMonitor ok => exact ⟨r, ok, href, hpc, (Option.some.inj h).symm⟩
    | delete | create | decide =>
      simp only [planBody] at h
      split at h <;> cases h
    | removeOld | clearPending => cases h
    | _ => cases hquiet

theorem spawn_eq_none (h : ∀ ok, th.pc ≠ .body (.spawnMonitor ok)) :
    (plan backend s th c).spawn = none := by
  cases hn : (plan backend s th c).spawn with
  | none => rfl
  | some =>
    obtain ⟨r, ok, -, hpc, -⟩ := spawn_plan hn
    exact absurd hpc (h ok)

theorem store_plan (backend : Backend) (s : Sys) (th : Thread) (c : Choice) :
    (plan backend s th c).store = .keep ∨
      (∃ r, th.ref = some r ∧ (plan backend s th c).store = .erase (s.objs r).id ∧
        (th.pc = .body .delete ∨ th.pc = .body .removeOld)) ∨
      ∃ r, th.ref = some r ∧ th.pc = .body .create ∧ s.FreshId c.id ∧
        (plan backend s th c).store = .create (Obj.new c.id (s.objs r).cfg) := by
  rcases plan_quiet backend s th c with ⟨-, hkeep, -⟩ | ⟨r, pc, href, hpc, hquiet, hplan⟩
  · exact .inl hkeep
  · rw [hplan]
    cases pc with
    | delete =>
      simp only [planBody]
      split
      · exact .inr (.inl ⟨r, href, rfl, .inl hpc⟩)
      · exact .inl rfl
    | removeOld => exact .inr (.inl ⟨r, href, rfl, .inr hpc⟩)
    | create =>
      simp only [planBody]
      split
      · next hfresh => exact .inr (.inr ⟨r, href, hpc, hfresh, rfl⟩)
      · exact .inl rfl
    | decide =>
      simp only [planBody]
      split <;> exact .inl rfl
    | spawnMonitor | clearPending => exact .inl rfl
    | _ => cases hquiet

inductive Writes (s : Sys) (th : Thread) : Option (Ref × (Obj → Obj)) → Prop where
  | nothing : Writes s th none
  | transition (r : Ref) (next : State) (href : th.ref = some r)
      (hvalid : next ∈ validTransitions (s.objs r).state) (hnext : next ≠ .restoring) :
      Writes s th (some (r, fun _ => { s.objs r with state := next }))
  | mark (r : Ref) (href : th.ref = some r) :
      Writes s th (some (r, fun v => { v with explicitStop := true }))
  | launched (r : Ref) (href : th.ref = some r) :
      Writes s th (some (r, fun v => { v with proc := true }))
  | beginRestore (r : Ref) (href : th.ref = some r) (hpc : th.pc = .body .beginRestore) :
      Writes s th (some (r, fun v =>
        { v with state := .restoring, explicitStop := false, proc := false, stopped := false }))
  | rollback (r : Ref) (href : th.ref = some r) :
      Writes s th (some (r, fun v => { v with state := .stopped, proc := false }))
  | count (r replacement : Ref) (href : th.ref = some r)
      (hpc : th.pc = .body (.setCount replacement)) :
      Writes s th (some (replacement, fun w =>
        { w with restartCount := (s.objs r).restartCount + 1 }))
  | stopped (r : Ref) (href : th.ref = some r) (hpc : th.pc = .body (.finish true))
      (hop : th.op = .stop ∨ th.op = .kill) :
      Writes s th (some (r, fun v => { v with stopped := true }))
  | removed (r : Ref) (href : th.ref = some r) (hpc : th.pc = .body (.finish true))
      (hop : th.op = .remove) : Writes s th (some (r, fun v => { v with removed := true }))

theorem writes_goes {pc pc' : BodyPc} {ch : Change} {e : Effect} (href : th.ref = some r)
    (hpc : th.pc = .body pc) (hgoes : Goes s th r pc e ch pc') : Writes s th e.write := by
  have hall : ∀ e ∈ pc.edges s.nextRef, e.1 ≠ .move .restoring ∧
      (e.1 = .beginRestore → pc = .beginRestore) := by
    cases pc <;> simp [BodyPc.edges]
  obtain ⟨hnot, hbegin⟩ := hall _ hgoes.edge
  rw [hgoes.write]
  cases ch with
  | keep => exact .nothing
  | move next => exact .transition r next href hgoes.allowed fun heq => hnot (heq ▸ rfl)
  | mark => exact .mark r href
  | launched => exact .launched r href
  | beginRestore => exact .beginRestore r href (hbegin rfl ▸ hpc)
  | rollback => exact .rollback r href

theorem writes_planBody (backend : Backend) (c : Choice) {pc : BodyPc} (href : th.ref = some r)
    (hpc : th.pc = .body pc) : Writes s th (planBody backend s th r (s.objs r) c pc).write := by
  rcases eq_or_ne (pc.edges s.nextRef) [] with hnil | hne
  · cases pc with
    | decide =>
      simp only [planBody]
      split <;> exact .nothing
    | sleep => cases backend <;> exact .nothing
    | setCount replacement => exact .count r replacement href hpc
    | clearPending => exact .nothing
    | finish ok =>
      cases ok with
      | false => exact .nothing
      | true =>
        simp only [planBody, Op.record, if_true]
        split
        · next hop => exact .stopped r href hpc (.inl hop)
        · next hop => exact .stopped r href hpc (.inr hop)
        · next hop => exact .removed r href hpc hop
        · exact .nothing
    | _ => cases hnil
  · obtain ⟨ch, pc', hgoes⟩ := goes_planBody backend s th c r hne
    exact writes_goes href hpc hgoes

theorem writes_plan : Writes s th (plan backend s th c).write := by
  by_cases hbody : ∃ pc, th.pc = .body pc
  · obtain ⟨pc, hpc⟩ := hbody
    unfold plan
    rw [hpc]
    cases href : th.ref with
    | none => exact .nothing
    | some => exact writes_planBody backend c href hpc
  · rw [(plan_outside fun pc hpc => hbody ⟨pc, hpc⟩).1]
    exact .nothing

/-- What a step does to a VM, by the kind of its write. -/
theorem objs_advance {P : Obj → Prop} (hr : r < s.nextRef) (hkeep : P (s.objs r))
    (hwrite : ∀ f, Writes s th (some (r, f)) → P (f (s.objs r))) :
    P ((s.apply t (plan backend s th c)).objs r) := by
  rw [Sys.objs_apply hr]
  exact Sys.of_write hkeep fun f hf => hwrite f (hf ▸ writes_plan)

theorem id_apply (hr : r < s.nextRef) :
    ((s.apply t (plan backend s th c)).objs r).id = (s.objs r).id ∧
      ((s.apply t (plan backend s th c)).objs r).cfg = (s.objs r).cfg := by
  refine objs_advance (P := fun v => v.id = _ ∧ v.cfg = _) hr ⟨rfl, rfl⟩ fun f hf => ?_
  cases hf <;> exact ⟨rfl, rfl⟩

theorem mem_of_resolve {key : Text} {pick : Nat} (h : s.resolve key pick = some r) :
    ∃ id, s.vms.lookup id = some r := by
  have hentry : ∀ e ∈ s.vms.entries, ∃ id, s.vms.lookup id = some e.2 :=
    fun e he => ⟨e.1, AList.mem_lookup_iff.mpr he⟩
  unfold Sys.resolve at h
  split at h
  · next hlookup => exact ⟨key, Option.some.inj h ▸ hlookup⟩
  · split at h
    · next e es hfilter =>
      have hsub : ∀ x ∈ e :: es, x ∈ s.vms.entries :=
        fun x hx => (List.mem_filter.mp (hfilter ▸ hx)).1
      rw [← Option.some.inj h]
      exact hentry _ (hsub _ (List.get_mem _ _))
    · split at h
      · next e hfilter =>
        rw [← Option.some.inj h]
        have hmem : e ∈ s.vms.entries.filter fun e => key.isPrefixOf e.1 :=
          hfilter ▸ List.mem_singleton_self e
        exact hentry e (List.mem_filter.mp hmem).1
      · cases h

def Pc.refs : Pc → List Ref
  | .claim r | .recheck r | .checkRestoring r => [r]
  | _ => []

def Thread.refs (th : Thread) : List Ref :=
  th.ref.toList ++ (th.caller.map Caller.old).toList ++ th.pc.refs

theorem refs_return {ok : Bool} (hn : th.return backend ok = some n) (hr : r ∈ n.refs) :
    r ∈ th.refs := by
  rcases return_eq_some hn with ⟨caller, hcaller, rfl⟩ | ⟨-, -, -, rfl⟩
  · simp [Thread.refs, Pc.refs, hcaller] at hr ⊢
    exact .inr (.inl hr)
  · simp [Thread.refs, Pc.refs] at hr ⊢
    exact hr.imp_right .inl

theorem refs_turn (hturn : Turn backend s th c n) (hr : r ∈ n.refs) :
    r ∈ th.refs ∨ ∃ id, s.vms.lookup id = some r := by
  cases hturn with
  | stay =>
    simp [Thread.refs, Pc.refs] at hr ⊢
    exact .inl (hr.imp_right .inl)
  | lookup key r₀ hpc hfc hres =>
    simp [Thread.refs, Pc.refs] at hr ⊢
    rcases hr with hr | hr | rfl
    · exact .inl (.inl hr)
    · exact .inl (.inr (.inl hr))
    · exact .inr (mem_of_resolve hres)
  | claim r₀ hpc | recheck r₀ hpc =>
    simp only [Thread.refs, hpc] at hr ⊢
    exact .inl hr
  | enter r₀ n hn hpc =>
    cases hn
    simp [Thread.refs, Pc.refs] at hr
    have hold : (∃ caller, th.caller = some caller ∧ caller.old = r) → r ∈ th.refs := by
      intro hcaller
      simp [Thread.refs, hcaller]
    have hself : r = r₀ → r ∈ th.refs ∨ ∃ id, s.vms.lookup id = some r := by
      rintro rfl
      rcases hpc with ⟨key, -, -, hres⟩ | hpc
      · exact .inr (mem_of_resolve hres)
      · exact .inl (by simp [Thread.refs, Pc.refs, hpc])
    split at hr
    · rcases hr with hr | hr
      · exact .inl (by simp [Thread.refs, hr])
      · exact .inl (hold hr)
    · rcases hr with hr | hr
      · exact hself (Option.some.inj hr).symm
      · exact .inl (hold hr)
  | restart r₀ failed explicit href | start r₀ replacement href =>
    simp [Thread.refs, Pc.refs] at hr
    exact .inl (by simp [Thread.refs, href, hr])
  | wake r₀ pc href hpc hpc' =>
    have hnil : pc.refs = [] := by
      rcases hpc' with ⟨-, rfl⟩ | ⟨-, rfl⟩ <;> rfl
    simp [Thread.refs, hnil] at hr ⊢
    exact .inl (hr.imp_right .inl)
  | «return» ok n hn => exact .inl (refs_return hn hr)

end Jerboa.Vm.Lifecycle
