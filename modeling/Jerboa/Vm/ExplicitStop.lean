import Jerboa.Vm.Drivers

/-!
# A stopped VM is not restarted

A monitor reads whether its VM was stopped explicitly once, when the process is
gone, and what it then decides on is not revisited: a `Stop` or `Kill` that marks
the VM later, or finds it stopped already, returns success and the replacement is
still created.  Where no such decision is under way when a call marks the VM or
finds it stopped, its success is final: no replacement of the VM is created any
more.
-/

namespace Jerboa.Vm.Lifecycle

open Net.Address Lib.Run
open Jerboa.Api (State validTransitions)

variable {backend : Backend} {s : Sys} {t : Nat} {th : Thread} {c : Choice}

def Pc.hasRead : Pc → Bool
  | .body .wait | .body (.readMark _) => false
  | _ => true

/-- The thread heads for a replacement of the VM, whatever is done to the VM's
mark. -/
def Thread.Decided (s : Sys) (th : Thread) (r : Ref) : Prop :=
  th.Heads s r ∧ th.pc.hasRead = true
deriving Decidable

/-- The step by which a `Stop` or `Kill` settles that it will succeed, but for the
signal: it finds the VM stopped, or marks it. -/
def Thread.Settles (s : Sys) (th : Thread) (r : Ref) : Prop :=
  (th.op = .stop ∨ th.op = .kill) ∧
    (th.pc = .body .mark ∨ th.pc = .body .checkStopped ∧ (s.objs r).state = .stopped)
deriving Decidable

/-- Whenever a `Stop` or `Kill` marks a VM, or finds it stopped, no monitor has
decided on a restart of it, and no restart of it is on its way. -/
def StopsInTime (s : Sys) : Action → Prop
  | .advance t _ => ∀ th ∈ s.threads t, ∀ r ∈ th.ref, th.Settles s r →
      ∀ t' < s.nextThread, ∀ th' ∈ s.threads t', ¬ th'.Decided s r
  | _ => True

instance (s : Sys) : ∀ a, Decidable (StopsInTime s a)
  | .advance _ _ => inferInstanceAs (Decidable (∀ th ∈ _, ∀ r ∈ _, _ → ∀ t' < _, ∀ th' ∈ _, _))
  | .create _ _ | .call _ _ => .isTrue trivial

theorem decided_turn (hwf : th.Wf backend) {n : Thread} (hturn : Turn backend s th c n) {r : Ref}
    (h : n.Decided s r) :
    th.Decided s r ∨ ∃ failed, th.ref = some r ∧ th.pc = .body (.readMark failed) ∧
      (s.objs r).explicitStop = false := by
  have hheads := heads_turn hwf hturn h.1
  by_cases hread : th.pc.hasRead = true
  · exact .inl ⟨hheads, hread⟩
  have hnot : ∀ {pc : Pc}, th.pc = pc → pc.hasRead = true → False :=
    fun hpc hpcRead => hread (hpc ▸ hpcRead)
  cases hturn with
  | stay r₀ pc pc' href hpc ch hgoes =>
    cases pc with
    | wait =>
      cases goto_inj hgoes.next
      cases h.2
    | readMark failed =>
      cases goto_inj hgoes.next
      cases hheads.2.1.symm.trans href
      have hexplicit := (Bool.and_eq_true_iff.mp h.1.2.2).1
      exact .inr ⟨failed, href, hpc, by simpa using hexplicit⟩
    | _ => exact (hnot hpc rfl).elim
  | lookup key r₀ hpc | claim r₀ hpc | recheck r₀ hpc => exact (hnot hpc rfl).elim
  | enter r₀ n hn hpc =>
    rcases hpc with ⟨key, hpc, -⟩ | hpc <;> exact (hnot hpc rfl).elim
  | restart r₀ failed explicit href hpc | wake r₀ pc href hpc | start r₀ replacement href hpc =>
    exact (hnot hpc rfl).elim
  | «return» ok n hn hpc =>
    rcases hpc with ⟨-, hpc⟩ | hpc
    · cases hth : th.pc with
      | body pc => exact absurd hth (hpc pc)
      | _ => exact (hnot hth rfl).elim
    · exact (hnot hpc rfl).elim

/-! ## Settled VMs -/

/-- A `Stop` or `Kill` of the VM that is past its mark, or found it stopped. -/
def Thread.Stops (th : Thread) (r : Ref) : Prop :=
  (th.op = .stop ∨ th.op = .kill) ∧ th.ref = some r ∧
    (th.pc = .body .signal ∨ th.pc = .body (.finish true))

/-- A `Stop` or `Kill` of the VM has returned success, or is about to. -/
def Settled (s : Sys) (r : Ref) : Prop := s.Recorded Obj.stopped Thread.Stops r

/-- The mark or the state of a VM keeps its monitor from a restart. -/
def Obj.Final (v : Obj) : Prop := v.explicitStop = true ∨ v.state = .stopped

theorem stops_edge {fresh : Ref} {pc pc' : BodyPc} {ch : Change} {op : Op}
    (h : (ch, pc') ∈ pc.edges fresh) (hpc' : pc' = .signal ∨ pc' = .finish true)
    (hop : op = .stop ∨ op = .kill) (hmem : op ∈ pc.ops) :
    pc = .checkStopped ∧ pc' = .finish true ∨ pc = .mark ∨ pc = .signal := by
  rcases hop with rfl | rfl <;> rcases hpc' with rfl | rfl <;> cases pc <;>
    simp [BodyPc.edges, BodyPc.ops] at h hmem ⊢

theorem stops_turn (hwf : th.Wf backend) {n : Thread} (hturn : Turn backend s th c n) {r : Ref}
    (h : n.Stops r) :
    th.Stops r ∨ th.ref = some r ∧ th.Settles s r ∧
      ((plan backend s th c).write = setExplicitStop r ∨
        (plan backend s th c).write = none ∧ (s.objs r).state = .stopped) := by
  obtain ⟨hop, href, hpc'⟩ := h
  cases hturn with
  | stay r₀ pc pc' href₀ hpc ch hgoes =>
    have hop : th.op = .stop ∨ th.op = .kill := hop
    have href : th.ref = some r := href
    cases href₀.symm.trans href
    have hplan : plan backend s th c = planBody backend s th r (s.objs r) c pc := by
      simp only [plan, hpc, href]
    rcases stops_edge hgoes.edge (by simpa using hpc') hop (hwf.op_mem hpc) with
      ⟨rfl, rfl⟩ | rfl | rfl
    · have hif := goto_inj hgoes.next
      split at hif
      · next hstopped =>
        exact .inr ⟨href, ⟨hop, .inr ⟨hpc, hstopped⟩⟩, .inr ⟨hplan ▸ rfl, hstopped⟩⟩
      · cases hif
    · exact .inr ⟨href, ⟨hop, .inl hpc⟩, .inl (hplan ▸ rfl)⟩
    · exact .inl ⟨hop, href, .inl hpc⟩
  | lookup | claim | recheck => rcases hpc' with hpc' | hpc' <;> cases hpc'
  | enter r₀ n hn =>
    cases hn
    have hop : th.op = .stop ∨ th.op = .kill := hop
    have hpc' : entry th.op = .signal ∨ entry th.op = .finish true := by simpa using hpc'
    rcases hop with hop | hop <;> simp [hop, entry] at hpc'
  | restart | start => rcases hop with hop | hop <;> cases hop
  | wake r₀ pc href hpc hpc₁ =>
    rcases hpc₁ with ⟨-, rfl⟩ | ⟨-, rfl⟩ <;> simp at hpc'
  | «return» ok n hn =>
    rcases return_eq_some hn with ⟨caller, -, rfl⟩ | ⟨-, -, -, rfl⟩
    · rcases hop with hop | hop <;> cases hop
    · simp at hpc'

theorem final_advance {r : Ref} (hr : r < s.nextRef) :
    (th.ref = some r ∧ th.pc = .body .beginRestore ∧
        ((s.apply t (plan backend s th c)).objs r).stopped = false) ∨
      ((s.objs r).Final → ((s.apply t (plan backend s th c)).objs r).Final) ∧
        (((s.apply t (plan backend s th c)).objs r).stopped = true →
          (s.objs r).stopped = true ∨ th.Stops r) := by
  refine objs_advance (P := fun v => (th.ref = some r ∧ th.pc = .body .beginRestore ∧
    v.stopped = false) ∨ ((s.objs r).Final → v.Final) ∧
      (v.stopped = true → (s.objs r).stopped = true ∨ th.Stops r)) hr (.inr ⟨id, .inl⟩)
    fun f hf => ?_
  cases hf with
  | transition r next href hvalid hnext =>
    refine .inr ⟨fun hfinal => hfinal.imp_right fun hstopped => ?_, .inl⟩
    rw [hstopped] at hvalid
    exact absurd (List.mem_singleton.mp hvalid) hnext
  | mark => exact .inr ⟨fun _ => .inl rfl, .inl⟩
  | beginRestore r href hpc => exact .inl ⟨href, hpc, rfl⟩
  | rollback => exact .inr ⟨fun _ => .inr rfl, .inl⟩
  | stopped r href hpc hop => exact .inr ⟨id, fun _ => .inr ⟨hop, href, .inr hpc⟩⟩
  | launched | count | removed => exact .inr ⟨id, .inl⟩

/-! ## The invariant -/

structure StaysStopped (s : Sys) : Prop where
  final : ∀ r < s.nextRef, Settled s r → (s.objs r).Final
  undecided : ∀ r < s.nextRef, Settled s r → ∀ t th, s.threads t = some th → ¬ th.Decided s r

theorem staysStopped_init : StaysStopped Sys.init where
  final := nofun
  undecided := nofun

theorem settled_advance (hbase : Base backend s) (hth : s.threads t = some th) {r : Ref}
    (hr : r < s.nextRef) (h : Settled (s.apply t (plan backend s th c)) r) :
    Settled s r ∨ th.ref = some r ∧ th.Settles s r ∧
      ((plan backend s th c).write = setExplicitStop r ∨
        (plan backend s th c).write = none ∧ (s.objs r).state = .stopped) := by
  rcases h with hflag | ⟨t', th', hth', hstops⟩
  · rcases final_advance hr with ⟨-, -, hfalse⟩ | ⟨-, hstopped⟩
    · cases hfalse.symm.trans hflag
    · exact .inl ((hstopped hflag).imp_right fun hstops => ⟨t, th, hth, hstops⟩)
  · rcases Sys.threads_apply hth' with ⟨-, hn⟩ | ⟨-, hn⟩ | ⟨-, hold⟩
    · exact (stops_turn (hbase.wf t th hth) (turn_plan hn) hstops).imp_left
        fun hstops => .inr ⟨t, th, hth, hstops⟩
    · obtain ⟨r', ok, -, -, rfl⟩ := spawn_plan hn
      rcases hstops.1 with hop | hop <;> cases hop
    · exact .inl (.inr ⟨t', th', hold, hstops⟩)

namespace StaysStopped

theorem not_settled_of_beginRestore (hbase : Base backend s) (hth : s.threads t = some th)
    {r : Ref} (href : th.ref = some r) (hpc : th.pc = .body .beginRestore)
    (hflag : ((s.apply t (plan backend s th c)).objs r).stopped = false) :
    ¬ Settled (s.apply t (plan backend s th c)) r := by
  have hwf := hbase.wf t th hth
  have hop : th.op = .snapshotRestore := hwf.op_eq hpc rfl
  have hfc : backend = .firecracker := hwf.snapshots (.inr hop)
  subst hfc
  rintro (hstopped | ⟨t', th', hth', hstops⟩)
  · cases hflag.symm.trans hstopped
  · rcases Sys.threads_apply hth' with ⟨-, hn⟩ | ⟨-, hn⟩ | ⟨hne, hold⟩
    · rcases stops_turn hwf (turn_plan hn) hstops with hstops | ⟨-, hsettles, -⟩
      · rcases hstops.1 with hop' | hop' <;> cases hop.symm.trans hop'
      · rcases hsettles.1 with hop' | hop' <;> cases hop.symm.trans hop'
    · obtain ⟨r', ok, -, -, rfl⟩ := spawn_plan hn
      rcases hstops.1 with hop | hop <;> cases hop
    · obtain ⟨hop', href', hpc'⟩ := hstops
      have hrestart : th'.op ≠ .restart := by rcases hop' with hop' | hop' <;> simp [hop']
      rcases hpc' with hpc' | hpc' <;>
        exact hne (hbase.one_call hold hth hrestart (by simp [hop]) hpc' hpc rfl rfl href' href)

section

variable (h : StaysStopped s)
include h

theorem advance (hbase : Base backend s) (hdriven : Driven s)
    (hth : s.threads t = some th) (hcond : StopsInTime s (.advance t c)) :
    StaysStopped (s.apply t (plan backend s th c)) := by
  have hold : ∀ r < (s.apply t (plan backend s th c)).nextRef,
      Settled (s.apply t (plan backend s th c)) r → r < s.nextRef := fun r hr =>
    lt_of_recorded (fun _ _ => rfl) (fun _ _ h => h.2.1) hbase hth hr
  refine ⟨fun r hr hsettled => ?_, fun r hr hsettled t' th' hth' hdecided => ?_⟩
  · have hlt := hold r hr hsettled
    rcases settled_advance hbase hth hlt hsettled with hbefore | ⟨-, -, hmark | ⟨hnone, hstopped⟩⟩
    · rcases final_advance hlt with ⟨href, hpc, hflag⟩ | ⟨hfinal, -⟩
      · exact absurd hsettled (not_settled_of_beginRestore hbase hth href hpc hflag)
      · exact hfinal (h.final r hlt hbefore)
    · rw [Sys.objs_apply hlt, hmark, setExplicitStop, Sys.write_some, if_pos rfl]
      exact .inl rfl
    · rw [Sys.objs_apply hlt, hnone, Sys.write]
      exact .inr hstopped
  · have hlt := hold r hr hsettled
    have hdecided : th'.Decided s r := ⟨(heads_congr (id_apply hlt).2).mp hdecided.1, hdecided.2⟩
    have hsettles := settled_advance hbase hth hlt hsettled
    -- Nobody had decided before the step.
    have hnone : ∀ t' th', s.threads t' = some th' → ¬ th'.Decided s r := by
      rcases hsettles with hbefore | ⟨href, hsettles, -⟩
      · exact h.undecided r hlt hbefore
      · exact fun t' th' hth' =>
          hcond th hth r href hsettles t' (hbase.lt_nextThread hth') th' hth'
    rcases Sys.threads_apply hth' with ⟨-, hn⟩ | ⟨-, hn⟩ | ⟨-, hother⟩
    · rcases decided_turn (hbase.wf t th hth) (turn_plan hn) hdecided with
        hdecided | ⟨failed, href, hpc, hexplicit⟩
      · exact hnone t th hth hdecided
      · rcases hsettles with hbefore | ⟨-, ⟨-, hpc' | ⟨hpc', -⟩⟩, -⟩
        · -- The VM of a monitor that reads the mark has its process still.
          rcases h.final r hlt hbefore with hmark | hstopped
          · cases hexplicit.symm.trans hmark
          · exact hdriven.busy t th r hth ⟨href, _, hpc, rfl⟩ (.inr hstopped)
        · cases hpc.symm.trans hpc'
        · cases hpc.symm.trans hpc'
    · obtain ⟨r', ok, -, -, rfl⟩ := spawn_plan hn
      cases hdecided.2
    · exact hnone t' th' hother hdecided

theorem addVM (hbase : Base backend s) (cfg : Config) (id : Text) :
    StaysStopped (s.addVM (Obj.new id cfg)) := by
  have hold : ∀ r < s.nextRef + 1, Settled (s.addVM (Obj.new id cfg)) r →
      r < s.nextRef ∧ Settled s r := fun r hr =>
    recorded_addVM (fun _ _ => rfl) (fun _ _ h => h.2.1) hbase hr
  refine ⟨fun r hr hsettled => ?_, fun r hr hsettled t th hth hdecided => ?_⟩
  · obtain ⟨hlt, hsettled⟩ := hold r hr hsettled
    rw [Sys.objs_addVM hlt]
    exact h.final r hlt hsettled
  · obtain ⟨hlt, hsettled⟩ := hold r hr hsettled
    exact h.undecided r hlt hsettled t th hth
      ⟨(heads_congr (by rw [Sys.objs_addVM hlt])).mp hdecided.1, hdecided.2⟩

theorem addThread (op : Op) (key : Text) :
    StaysStopped (s.addThread (callThread op key)) := by
  have hold : ∀ r, Settled (s.addThread (callThread op key)) r → Settled s r :=
    fun r => recorded_addThread fun _ _ h => h.2.1
  refine ⟨fun r hr hsettled => h.final r hr (hold r hsettled),
    fun r hr hsettled t th hth hdecided => ?_⟩
  rcases Sys.threads_addThread hth with ⟨-, rfl⟩ | hth
  · cases hdecided.1.2.1
  · exact h.undecided r hr (hold r hsettled) t th hth hdecided

theorem step (hbase : Base backend s) (hdriven : Driven s) {a : Action}
    (hcond : StopsInTime s a) : StaysStopped (step backend s a) := by
  refine step_induction h (fun cfg id _ => h.addVM hbase cfg id)
    (fun op key _ => h.addThread op key)
    fun t c th ha hth => ?_
  subst ha
  exact h.advance hbase hdriven hth hcond

end

end StaysStopped

/-- In every run in which each `Stop` and `Kill` comes in time, no replacement is
created of a VM that a `Stop` or `Kill` has returned success for. -/
theorem stopped_never_replaced {backend : Backend} {acts : List Action}
    (htime : AllSteps (step backend) StopsInTime Sys.init acts) :
    ∀ a old, Creates (run (step backend) Sys.init acts) a old →
      ((run (step backend) Sys.init acts).objs old).stopped = false := by
  obtain ⟨hbase, -, hstays⟩ :=
    run_invariant_of_allSteps (I := fun s => Base backend s ∧ Driven s ∧ StaysStopped s)
      (fun s a h ha => ⟨h.1.step a, h.2.1.step h.1 a, h.2.2.step h.1 h.2.1 ha⟩)
      ⟨base_init, driven_init, staysStopped_init⟩ htime
  rintro a old ⟨t, c, th, -, hth, hpc, href, -⟩
  have hrestart : th.op = .restart := (hbase.wf t th hth).op_eq hpc rfl
  have hdecided : th.Decided (run (step backend) Sys.init acts) old :=
    ⟨⟨.inr hrestart, href, by rw [hpc]; rfl⟩, by rw [hpc]; rfl⟩
  rw [Bool.eq_false_iff]
  intro hflag
  exact hstays.undecided old (hbase.refs t th hth old (by simp [Thread.refs, href])) (.inl hflag) t
    th hth hdecided

/-- The guest exits on its own and its monitor leaves a restart behind; a `Stop`
finds the VM stopped and returns success; the restart wakes up. -/
def stopDuringBackoff (backend : Backend) : List Action :=
  started backend "web".toList webId 0 ++ steps 1 4 ++ [.call .stop webId] ++
    steps 2 (claimSteps backend + 2) ++ woken 1 backend

/-- In either manager the replacement of the stopped VM is created. -/
theorem stopped_then_replaced :
    (∃ a, Creates (run (step .qemu) Sys.init (stopDuringBackoff .qemu)) a 0 ∧
      ((run (step .qemu) Sys.init (stopDuringBackoff .qemu)).objs 0).stopped = true) ∧
    ∃ a, Creates (run (step .firecracker) Sys.init (stopDuringBackoff .firecracker)) a 0 ∧
      ((run (step .firecracker) Sys.init (stopDuringBackoff .firecracker)).objs 0).stopped =
        true := by
  refine ⟨⟨.advance 1 ⟨true, 0, dbId⟩, ⟨1, _, ⟨.restart, some 0, none, none, .body .create⟩, rfl,
      ?_, rfl, rfl, ?_⟩, ?_⟩,
    .advance 1 ⟨true, 0, dbId⟩, ⟨1, _, ⟨.restart, some 0, some webId, none, .body .create⟩, rfl,
      ?_, rfl, rfl, ?_⟩, ?_⟩
  all_goals decide +kernel

/-- The first VM is stopped while its guest runs and goes down; the second one's
guest exits on its own, and its restart wakes up. -/
def stopWhileRunning (backend : Backend) : List Action :=
  started backend "web".toList webId 0 ++ [.call .stop webId] ++
    steps 2 (claimSteps backend + 5) ++ steps 1 4 ++
    started backend "db".toList dbId 3 ++ steps 4 4 ++ woken 4 backend

theorem stopped_never_replaced_running :
    (∃ a, Creates (run (step .firecracker) Sys.init (stopWhileRunning .firecracker)) a 1) ∧
      ((run (step .firecracker) Sys.init (stopWhileRunning .firecracker)).objs 0).stopped = true ∧
      ∀ a old, Creates (run (step .firecracker) Sys.init (stopWhileRunning .firecracker)) a old →
        ((run (step .firecracker) Sys.init (stopWhileRunning .firecracker)).objs old).stopped =
          false := by
  refine ⟨⟨.advance 4 ⟨true, 0, "09d2b7e4f6a1".toList⟩, 4, _,
    ⟨.restart, some 1, some dbId, none, .body .create⟩, rfl, ?_, rfl, rfl, ?_⟩, ?_,
    stopped_never_replaced ?_⟩
  all_goals decide +kernel

end Jerboa.Vm.Lifecycle
