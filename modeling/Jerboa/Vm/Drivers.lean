import Jerboa.Vm.Ownership

/-!
# Who drives a VM

From the launch of a VM's process to the monitor's report that it is gone, one
thread after the other drives the VM: the `Start` or the `SnapshotRestore` that
launches it, and then the monitor.  Over every interleaving, and in either
manager, a VM has one driver at a time, and one that is created or stopped has
none.
-/

namespace Jerboa.Vm.Lifecycle

open Net.Address Lib.Run Sys
open Jerboa.Api (State validTransitions)

variable {backend : Backend} {s : Sys} {t : Nat} {th : Thread} {c : Choice} {e : Effect}

def Obj.Idle (v : Obj) : Prop := v.state = .created ∨ v.state = .stopped

theorem Obj.idle_congr {v w : Obj} (h : v.state = w.state) : v.Idle ↔ w.Idle := by
  rw [Idle, Idle, h]

def BodyPc.drives : BodyPc → Bool
  | .launch | .toRunning | .publish | .spawnMonitor _ | .load | .commit | .rollback | .wait
  | .readMark _ | .toStopped _ _ => true
  | _ => false

def Thread.Drives (th : Thread) (r : Ref) : Prop :=
  th.ref = some r ∧ ∃ pc, th.pc = .body pc ∧ pc.drives = true

variable {r : Ref} {n : Thread}

theorem drives_goto {pc : BodyPc} (hn : th.goto pc = some n) (h : n.Drives r) :
    th.ref = some r ∧ pc.drives = true := by
  cases hn
  obtain ⟨href, pc', hpc, hdrives⟩ := h
  cases hpc
  exact ⟨href, hdrives⟩

theorem not_drives_of_pc (hpc : ∀ pc, th.pc = .body pc → pc.drives = false) (r : Ref) :
    ¬ th.Drives r := by
  rintro ⟨-, pc, hbody, hdrives⟩
  cases (hpc pc hbody).symm.trans hdrives

theorem not_drives_return {ok : Bool} (hn : th.return backend ok = some n) (r : Ref) :
    ¬ n.Drives r := by
  refine not_drives_of_pc (fun pc h => ?_) r
  rcases return_eq_some hn with ⟨caller, -, rfl⟩ | ⟨-, -, -, rfl⟩
  · cases h
    cases ok <;> rfl
  · cases h
    rfl

theorem not_drives_enter {r₀ : Ref} (hn : th.enter r₀ = some n) (hop : th.op ≠ .monitor) (r : Ref) :
    ¬ n.Drives r := by
  refine not_drives_of_pc (fun pc h => ?_) r
  cases hn
  cases h
  cases hth : th.op <;> first | rfl | exact absurd hth hop

def Thread.Takes (s : Sys) (th : Thread) (r : Ref) : Prop :=
  th.ref = some r ∧ (th.pc = .body .toStarting ∧ (s.objs r).state = .created ∨
    th.pc = .body .beginRestore ∧ (s.objs r).state = .stopped)

theorem Thread.Takes.idle (h : th.Takes s r) : (s.objs r).Idle :=
  h.2.imp And.right And.right

/-- What a step means for the drivers: who drives a VM after it did before, or
takes it; who was not its driver does not make it idle; and a driver that starts
another is none any more. -/
structure DriveStep (s : Sys) (th : Thread) (e : Effect) : Prop where
  busy : ∀ n, e.next = some n ∨ e.spawn = some n → ∀ r, n.Drives r →
    ¬ (Sys.write s.objs e.write r).Idle
  mine : ∀ n, e.next = some n ∨ e.spawn = some n → ∀ r, n.Drives r →
    th.Drives r ∨ th.Takes s r
  one : ∀ n m r, e.next = some n → e.spawn = some m → n.Drives r → ¬ m.Drives r
  quit : ∀ r, (Sys.write s.objs e.write r).Idle → (s.objs r).Idle ∨ th.Drives r

theorem DriveStep.quiet (hnext : ∀ n, e.next = some n → ∀ r, ¬ n.Drives r)
    (hspawn : e.spawn = none)
    (hstate : ∀ r, (write s.objs e.write r).state = (s.objs r).state) : DriveStep s th e where
  busy n hn r hr := by
    rcases hn with hn | hn
    · exact absurd hr (hnext n hn r)
    · cases hspawn.symm.trans hn
  mine n hn r hr := by
    rcases hn with hn | hn
    · exact absurd hr (hnext n hn r)
    · cases hspawn.symm.trans hn
  one n m r _ hm := by cases hspawn.symm.trans hm
  quit r hr := .inl ((Obj.idle_congr (hstate r)).mp hr)

/-- The state that a change moves its VM to. -/
def Change.to : Change → Option State
  | .move next => some next
  | .beginRestore => some .restoring
  | .rollback => some .stopped
  | _ => none

theorem state_change (ch : Change) :
    (write s.objs (ch.write r (s.objs r)) r).state = ch.to.getD (s.objs r).state := by
  cases ch <;> simp [Change.write, Change.to, write, setExplicitStop]

theorem change_other (ch : Change) {r' : Ref} (hne : r' ≠ r) :
    write s.objs (ch.write r (s.objs r)) r' = s.objs r' := by
  cases ch <;> simp [Change.write, write, setExplicitStop, hne]

/-- A step that comes to drive drives already, or takes the VM, and leaves it busy;
and only a driver leaves a VM idle. -/
theorem drives_edge {fresh : Ref} {pc pc' : BodyPc} {ch : Change}
    (h : (ch, pc') ∈ pc.edges fresh) :
    (pc'.drives = true → ch.to ≠ some .created ∧ ch.to ≠ some .stopped ∧
      (pc.drives = true ∨ pc = .toStarting ∧ ch = .move .starting ∨
        pc = .beginRestore ∧ ch = .beginRestore)) ∧
    (ch.to = some .created ∨ ch.to = some .stopped → pc.drives = true) := by
  have hall : ∀ e ∈ pc.edges fresh,
      (e.2.drives = true → e.1.to ≠ some .created ∧ e.1.to ≠ some .stopped ∧
        (pc.drives = true ∨ pc = .toStarting ∧ e.1 = .move .starting ∨
          pc = .beginRestore ∧ e.1 = .beginRestore)) ∧
      (e.1.to = some .created ∨ e.1.to = some .stopped → pc.drives = true) := by
    cases pc <;> simp [BodyPc.edges, BodyPc.drives, Change.to]
  exact hall _ h

theorem driveStep_goes {pc pc' : BodyPc} {ch : Change} (href : th.ref = some r)
    (hpc : th.pc = .body pc) (hbusy : pc.drives = true → ¬ (s.objs r).Idle)
    (hgoes : Goes s th r pc e ch pc') (hspawn : e.spawn = none) : DriveStep s th e := by
  obtain ⟨hin, hout⟩ := drives_edge hgoes.edge
  have hself : pc.drives = true → th.Drives r := fun h => ⟨href, pc, hpc, h⟩
  have hidle : ∀ {v : Obj} {st : State}, v.state = st → v.Idle → st = .created ∨ st = .stopped :=
    fun hv h => hv ▸ h
  have hgo : ∀ n, e.next = some n ∨ e.spawn = some n → ∀ r', n.Drives r' →
      r' = r ∧ pc'.drives = true := by
    intro n hn r' hr'
    rcases hn with hn | hn
    · obtain ⟨href', hdrives⟩ := drives_goto (hgoes.next.symm.trans hn) hr'
      exact ⟨Option.some.inj (href'.symm.trans href), hdrives⟩
    · cases hspawn.symm.trans hn
  refine ⟨fun n hn r' hr' h => ?_, fun n hn r' hr' => ?_, fun n m r' _ hm => ?_,
    fun r' hr' => ?_⟩
  · obtain ⟨rfl, hdrives⟩ := hgo n hn r' hr'
    obtain ⟨hcreated, hstopped, hmine⟩ := hin hdrives
    rw [hgoes.write] at h
    have hstate := hidle (state_change ch) h
    cases hto : ch.to with
    | some st =>
      rw [hto] at hcreated hstopped hstate
      rcases hstate with rfl | rfl
      · exact hcreated rfl
      · exact hstopped rfl
    | none =>
      rw [hto] at hstate
      rcases hmine with hdrives | ⟨-, rfl⟩ | ⟨-, rfl⟩
      · exact hbusy hdrives hstate
      · cases hto
      · cases hto
  · obtain ⟨rfl, hdrives⟩ := hgo n hn r' hr'
    have hallowed := hgoes.allowed
    rcases (hin hdrives).2.2 with hmine | ⟨rfl, rfl⟩ | ⟨rfl, rfl⟩
    · exact .inl (hself hmine)
    · refine .inr ⟨href, .inl ⟨hpc, ?_⟩⟩
      simp only [Change.Allowed] at hallowed
      cases hstate : (s.objs r').state <;> simp [hstate, validTransitions] at hallowed ⊢
    · exact .inr ⟨href, .inr ⟨hpc, hallowed⟩⟩
  · cases hspawn.symm.trans hm
  · rw [hgoes.write] at hr'
    rcases eq_or_ne r' r with rfl | hne
    · have hstate := hidle (state_change ch) hr'
      cases hto : ch.to with
      | none =>
        rw [hto] at hstate
        exact .inl hstate
      | some st =>
        rw [hto] at hstate
        exact .inr (hself (hout (hstate.imp (hto.trans <| congrArg some ·)
          (hto.trans <| congrArg some ·))))
    · exact .inl (change_other ch hne ▸ hr')

theorem driveStep_planBody {pc : BodyPc} (href : th.ref = some r) (hpc : th.pc = .body pc)
    (hbusy : pc.drives = true → ¬ (s.objs r).Idle)
    (hspawn : (∀ ok, pc ≠ .spawnMonitor ok) →
      (planBody backend s th r (s.objs r) c pc).spawn = none) :
    DriveStep s th (planBody backend s th r (s.objs r) c pc) := by
  rcases eq_or_ne (pc.edges s.nextRef) [] with hnil | hne
  · cases pc with
    | decide =>
      simp only [planBody]
      split
      · refine .quiet (fun n hn => ?_) rfl fun _ => rfl
        cases Option.some.inj hn
        exact not_drives_of_pc (by simp [BodyPc.drives])
      · exact .quiet (fun n hn => by cases hn) rfl fun _ => rfl
    | sleep =>
      cases backend <;>
        (refine .quiet (fun n hn => ?_) rfl fun _ => rfl
         cases Option.some.inj hn
         exact not_drives_of_pc (by simp [BodyPc.drives]))
    | setCount =>
      refine .quiet (fun n hn => ?_) rfl fun r' => ?_
      · cases Option.some.inj hn
        exact not_drives_of_pc (by simp)
      · exact of_write (P := fun v => v.state = _) rfl fun f hf => by cases hf; rfl
    | clearPending => exact .quiet (fun n hn => by cases hn) rfl fun _ => rfl
    | finish =>
      refine .quiet (fun n hn => not_drives_return hn) rfl fun r' => ?_
      refine of_write (P := fun v => v.state = _) rfl fun f hf => ?_
      simp only [planBody, Op.record] at hf
      split at hf
      · split at hf <;> cases hf <;> rfl
      · cases hf
    | _ => cases hnil
  obtain ⟨ch, pc', hgoes⟩ := goes_planBody backend s th c r hne
  by_cases hmonitor : ∃ ok, pc = .spawnMonitor ok
  · -- The monitor takes over.
    obtain ⟨ok, rfl⟩ := hmonitor
    have hdrives : th.Drives r := ⟨href, _, hpc, rfl⟩
    have hgoes : ∀ n, (th.goto (.finish ok) = some n ∨ some (monitorThread r) = some n) →
        ∀ r', n.Drives r' → r' = r := by
      intro n hn r' hr'
      rcases hn with hn | hn
      · cases (drives_goto hn hr').2
      · cases Option.some.inj hn
        exact (Option.some.inj hr'.1).symm
    refine ⟨fun n hn r' hr' => ?_, fun n hn r' hr' => ?_, fun n m r' hn _ hr' => ?_,
      fun r' hr' => .inl hr'⟩
    · rw [hgoes n hn r' hr']
      exact hbusy rfl
    · rw [hgoes n hn r' hr']
      exact .inl hdrives
    · cases (drives_goto hn hr').2
  · exact driveStep_goes href hpc hbusy hgoes (hspawn fun ok heq => hmonitor ⟨ok, heq⟩)

theorem driveStep_plan (hwf : th.Wf backend) (hbusy : ∀ r, th.Drives r → ¬ (s.objs r).Idle) :
    DriveStep s th (plan backend s th c) := by
  have hfits := hwf.fits
  by_cases hbody : ∃ pc, th.pc = .body pc
  · obtain ⟨pc, hpc⟩ := hbody
    rw [hpc] at hfits
    obtain ⟨r, href⟩ := Option.isSome_iff_exists.mp hfits.2.1
    have hplan : plan backend s th c = planBody backend s th r (s.objs r) c pc := by
      simp only [plan, hpc, href]
    rw [hplan]
    refine driveStep_planBody href hpc (fun hdrives => hbusy r ⟨href, pc, hpc, hdrives⟩)
      fun hmonitor => hplan ▸ spawn_eq_none fun ok hpc' => ?_
    cases hpc.symm.trans hpc'
    exact hmonitor ok rfl
  -- Outside its function a thread writes nothing, and does not drive at its entry.
  have hwrite : (plan backend s th c).write = none := (plan_outside fun pc hpc => hbody ⟨pc, hpc⟩).1
  have hspawn : (plan backend s th c).spawn = none := spawn_eq_none fun _ hpc => hbody ⟨_, hpc⟩
  refine .quiet (fun n hn r => ?_) hspawn fun r => by rw [hwrite, write]
  cases turn_plan hn with
  | stay r₀ pc pc' href hpc => exact absurd ⟨pc, hpc⟩ hbody
  | lookup | claim | recheck => exact not_drives_of_pc (fun pc h => by cases h) r
  | enter r₀ n henter hpc =>
    refine not_drives_enter henter ?_ r
    rcases hpc with ⟨key, hpc, -, -⟩ | hpc
    · rw [hpc] at hfits
      exact hfits.2.1
    · rw [hpc] at hfits
      exact hfits.2.2.1
  | restart r₀ failed explicit href hpc | wake r₀ pc href hpc | start r₀ replacement href hpc =>
    exact absurd ⟨_, hpc⟩ hbody
  | «return» ok n hreturn => exact not_drives_return hreturn r

structure Driven (s : Sys) : Prop where
  busy : ∀ t th r, s.threads t = some th → th.Drives r → ¬ (s.objs r).Idle
  one : ∀ t t' th th' r, s.threads t = some th → s.threads t' = some th' → th.Drives r →
    th'.Drives r → t = t'

theorem driven_init : Driven init where
  busy _ _ _ h := by cases h
  one _ _ _ _ _ h := by cases h

namespace Driven

theorem advance (h : Driven s) (hbase : Base backend s) (hth : s.threads t = some th)
    (c : Choice) : Driven (s.apply t (plan backend s th c)) := by
  have hstep : DriveStep s th (plan backend s th c) :=
    driveStep_plan (hbase.wf t th hth) fun r hr => h.busy t th r hth hr
  generalize he : plan backend s th c = e at hstep
  have hlt : ∀ t' th' r, (s.apply t e).threads t' = some th' → th'.Drives r → r < s.nextRef :=
    fun t' th' r hth' hr =>
      hbase.refs_advance hth (he ▸ hth') (List.mem_append_left _ (by simp [hr.1]))
  -- Who drives after the step and took no part in it is alone.
  have halone : ∀ t' th' n r, t' ≠ t → s.threads t' = some th' →
      e.next = some n ∨ e.spawn = some n → th'.Drives r → ¬ n.Drives r := by
    intro t' th' n r hne hth' hn hr' hr
    rcases hstep.mine n hn r hr with hmine | htakes
    · exact hne (h.one t' t th' th r hth' hth hr' hmine)
    · exact h.busy t' th' r hth' hr' htakes.idle
  refine ⟨fun t' th' r hth' hr => ?_, fun t₁ t₂ th₁ th₂ r hth₁ hth₂ hr₁ hr₂ => ?_⟩
  · rw [objs_apply (hlt t' th' r hth' hr)]
    rcases threads_apply hth' with ⟨-, hn⟩ | ⟨-, hn⟩ | ⟨hne, hold⟩
    · exact hstep.busy th' (.inl hn) r hr
    · exact hstep.busy th' (.inr hn) r hr
    · intro hidle
      rcases hstep.quit r hidle with hidle | hmine
      · exact h.busy t' th' r hold hr hidle
      · exact hne (h.one t' t th' th r hold hth hr hmine)
  · by_contra hne
    refine pairwise_apply (R := fun th th' => th.Drives r → ¬ th'.Drives r)
      (fun _ _ hR h h' => hR h' h) (fun t t' th th' hth hth' hne hr hr' =>
        hne (h.one t t' th th' r hth hth' hr hr'))
      (fun n hn t' th' hne hth' hr hr' => halone t' th' n r hne hth' hn hr' hr)
      (fun n m hn hm => hstep.one n m r hn hm) hth₁ hth₂ hne hr₁ hr₂

theorem step (h : Driven s) (hbase : Base backend s) (a : Action) :
    Driven (step backend s a) := by
  refine step_induction h (fun cfg id _ => ?_) (fun op key _ => ?_) fun t c th _ hth => ?_
  · refine ⟨fun t th r hth hr => ?_, fun t t' th th' r => h.one t t' th th' r⟩
    rw [objs_addVM (hbase.refs t th hth r (by simp [Thread.refs, hr.1]))]
    exact h.busy t th r hth hr
  · have hold : ∀ t th r, (s.addThread (callThread op key)).threads t = some th →
        th.Drives r → s.threads t = some th := by
      intro t th r hth hr
      rcases threads_addThread hth with ⟨-, rfl⟩ | hold
      · cases hr.1
      · exact hold
    exact ⟨fun t th r hth hr => h.busy t th r (hold t th r hth hr) hr,
      fun t t' th th' r hth hth' hr hr' =>
        h.one t t' th th' r (hold t th r hth hr) (hold t' th' r hth' hr') hr hr'⟩
  · exact h.advance hbase hth c

end Driven

/-! ## What is recorded of a VM -/

/-- The history of the VM says so, or a thread is about to record it. -/
def Sys.Recorded (s : Sys) (flag : Obj → Bool) (P : Thread → Ref → Prop) (r : Ref) : Prop :=
  flag (s.objs r) = true ∨ ∃ t th, s.threads t = some th ∧ P th r

section

variable {flag : Obj → Bool} {P : Thread → Ref → Prop}
    (hnew : ∀ id cfg, flag (Obj.new id cfg) = false)
  (href : ∀ th r, P th r → th.ref = some r)
include hnew href

theorem lt_of_recorded (hbase : Base backend s) (hth : s.threads t = some th)
    (hr : r < (s.apply t (plan backend s th c)).nextRef)
    (h : (s.apply t (plan backend s th c)).Recorded flag P r) : r < s.nextRef := by
  rcases h with hflag | ⟨t', th', hth', hP⟩
  · rcases old_or_new hr with hlt | ⟨id, cfg, heq⟩
    · exact hlt
    · rw [heq, hnew] at hflag
      cases hflag
  · exact hbase.refs_advance hth hth' (by simp [Thread.refs, href th' r hP])

theorem recorded_addVM (hbase : Base backend s) {cfg : Config} {id : Text}
    (hr : r < s.nextRef + 1) (h : (s.addVM (Obj.new id cfg)).Recorded flag P r) :
    r < s.nextRef ∧ s.Recorded flag P r := by
  rcases h with hflag | ⟨t, th, hth, hP⟩
  · rcases Nat.lt_succ_iff_lt_or_eq.mp hr with hlt | rfl
    · exact ⟨hlt, .inl (objs_addVM hlt ▸ hflag)⟩
    · simp [addVM, hnew] at hflag
  · exact ⟨hbase.refs t th hth r (by simp [Thread.refs, href th r hP]), .inr ⟨t, th, hth, hP⟩⟩

omit hnew in
theorem recorded_addThread {op : Op} {key : Text}
    (h : (s.addThread (callThread op key)).Recorded flag P r) : s.Recorded flag P r := by
  rcases h with hflag | ⟨t, th, hth, hP⟩
  · exact .inl hflag
  · rcases threads_addThread hth with ⟨-, rfl⟩ | hth
    · cases href _ r hP
    · exact .inr ⟨t, th, hth, hP⟩

end

/-! ## Threads about to replace a VM -/

def RestartPolicy.answers : RestartPolicy → Bool → Bool
  | .never, _ => false
  | .always, _ => true
  | .onFailure, failed => failed

/-- A monitor, or a restart, may still come from this step to the creation of a
replacement. -/
def Pc.heads (policy : RestartPolicy) : Pc → Bool
  | .body .wait | .body (.readMark _) => policy ≠ .never
  | .body (.toStopped failed explicit) | .body (.decide failed explicit) =>
    !explicit && policy.answers failed
  | .body .sleep | .body .checkOld | .body .create => true
  | .body _ => false
  | _ => true

def Thread.Heads (s : Sys) (th : Thread) (r : Ref) : Prop :=
  (th.op = .monitor ∨ th.op = .restart) ∧ th.ref = some r ∧
    th.pc.heads (s.objs r).cfg.policy = true
deriving Decidable

theorem answers_of_shouldRestart {v : Obj} {failed explicit : Bool}
    (h : shouldRestart v failed explicit = true) :
    (!explicit && v.cfg.policy.answers failed) = true := by
  simp only [shouldRestart, Bool.and_eq_true] at h
  rw [Bool.and_eq_true]
  refine ⟨h.1.1, ?_⟩
  have hpolicy := h.1.2
  cases hp : v.cfg.policy <;> simp_all [RestartPolicy.answers]

theorem heads_congr {s' : Sys} (h : (s'.objs r).cfg = (s.objs r).cfg) :
    th.Heads s' r ↔ th.Heads s r := by
  rw [Thread.Heads, Thread.Heads, h]

theorem goto_inj {pc pc' : BodyPc} (h : th.goto pc = th.goto pc') : pc = pc' := by
  simpa [Thread.goto] using h

theorem heads_edge {fresh : Ref} {pc pc' : BodyPc} {ch : Change} {policy : RestartPolicy}
    (h : (ch, pc') ∈ pc.edges fresh) (hheads : (Pc.body pc').heads policy = true) :
    (Pc.body pc).heads policy = true := by
  have hall : ∀ e ∈ pc.edges fresh, (Pc.body e.2).heads policy = true →
      (Pc.body pc).heads policy = true := by
    cases pc <;> cases policy <;> simp [BodyPc.edges, Pc.heads, RestartPolicy.answers]
  exact hall _ h hheads

theorem heads_turn (hwf : th.Wf backend) (hturn : Turn backend s th c n) (h : n.Heads s r) :
    th.Heads s r := by
  have hfits := hwf.fits
  cases hturn with
  | stay r₀ pc pc' href hpc ch hgoes =>
    refine ⟨h.1, h.2.1, ?_⟩
    rw [hpc]
    exact heads_edge hgoes.edge h.2.2
  | lookup key r₀ hpc | claim r₀ hpc | recheck r₀ hpc =>
    refine ⟨h.1, h.2.1, ?_⟩
    rw [hpc]
    rfl
  | enter r₀ n hn hpc =>
    cases hn
    obtain ⟨hop, href, -⟩ := h
    have hheads : th.op ≠ .monitor ∧ th.pc.heads (s.objs r).cfg.policy = true := by
      rcases hpc with ⟨key, hpc, -⟩ | hpc
      · rw [hpc] at hfits ⊢
        exact ⟨hfits.2.1, rfl⟩
      · rw [hpc] at hfits ⊢
        exact ⟨hfits.2.2.1, rfl⟩
    have hrestart : th.op = .restart := hop.resolve_left hheads.1
    exact ⟨hop, by simpa [hrestart] using href, hheads.2⟩
  | restart r₀ failed explicit href hpc hshould =>
    cases Option.some.inj h.2.1
    refine ⟨.inl (hwf.op_eq hpc rfl), href, ?_⟩
    rw [hpc]
    exact answers_of_shouldRestart hshould
  | wake r₀ pc href hpc =>
    refine ⟨h.1, h.2.1, ?_⟩
    rw [hpc]
    rfl
  | start => exact absurd h.1 (by simp)
  | «return» ok n hn =>
    rcases return_eq_some hn with ⟨caller, -, rfl⟩ | ⟨-, -, -, rfl⟩
    · cases ok <;> cases h.2.2
    · cases h.2.2

end Jerboa.Vm.Lifecycle
