import Jerboa.Vm.PendingRestart

/-!
# A removed VM is not replaced

A `Remove` that has returned success has taken the VM from the store for good.
QEMU's restart does not look at the store when it wakes up: the VM is safe from
it if nothing that may lead to a replacement is under way when it is removed.
Firecracker's restart looks its VM up and claims it: the VM is safe from it if
no other VM is named like its id.
-/

namespace Jerboa.Vm.Lifecycle

open Net.Address Lib.Run Sys
open Jerboa.Api (State validTransitions)

variable {backend : Backend} {s : Sys} {t : Nat} {th : Thread} {c : Choice}

/-! ## Removed VMs are not in the store -/

def Thread.Removes (th : Thread) (r : Ref) : Prop :=
  th.op = .remove ∧ th.ref = some r ∧ th.pc = .body (.finish true)

def Removed (s : Sys) (r : Ref) : Prop := s.Recorded Obj.removed Thread.Removes r

variable {r : Ref} {n : Thread}

theorem removes_edge {fresh : Ref} {pc : BodyPc} {ch : Change}
    (h : (ch, .finish true) ∈ pc.edges fresh) (hmem : .remove ∈ pc.ops) : pc = .delete := by
  cases pc <;> simp [BodyPc.edges, BodyPc.ops] at h hmem ⊢

theorem removes_turn (hwf : th.Wf backend) (hturn : Turn backend s th c n) (h : n.Removes r) :
    th.ref = some r ∧ th.pc = .body .delete ∧ (s.objs r).id ∈ s.vms := by
  cases hturn with
  | stay r₀ pc pc' href₀ hpc ch hgoes =>
    obtain ⟨hop, href, rfl⟩ : th.op = .remove ∧ th.ref = some r ∧ pc' = .finish true := by
      simpa [Thread.Removes] using h
    cases href₀.symm.trans href
    cases removes_edge hgoes.edge (hop ▸ hwf.op_mem hpc)
    have hnext := hgoes.next
    simp only [planBody] at hnext
    split at hnext
    · next hmem => exact ⟨href, hpc, hmem⟩
    · cases goto_inj hnext
  | lookup | claim | recheck => cases h.2.2
  | restart | start => cases h.1
  | enter r₀ n hn =>
    cases hn
    obtain ⟨hop, -, hpc'⟩ := h
    simp [show th.op = .remove from hop, entry] at hpc'
  | wake r₀ pc href₀ hpc hpc₁ =>
    rcases hpc₁ with ⟨-, rfl⟩ | ⟨-, rfl⟩ <;> cases h.2.2
  | «return» ok n hn =>
    rcases return_eq_some hn with ⟨caller, -, rfl⟩ | ⟨-, -, -, rfl⟩
    · cases h.1
    · cases h.2.2

theorem removed_advance (hbase : Base backend s) (hth : s.threads t = some th) (hr : r < s.nextRef)
    (h : Removed (s.apply t (plan backend s th c)) r) :
    Removed s r ∨ th.ref = some r ∧ th.pc = .body .delete ∧ (s.objs r).id ∈ s.vms := by
  rcases h with hflag | ⟨t', th', hth', hremoves⟩
  · refine .inl (Or.imp_right (fun h : th.Removes r => ⟨t, th, hth, h⟩) ?_)
    revert hflag
    refine objs_advance (P := fun v => v.removed = true → (s.objs r).removed = true ∨ th.Removes r)
      hr .inl fun f hf => ?_
    cases hf with
    | removed r href hpc hop => exact fun _ => .inr ⟨hop, href, hpc⟩
    | _ => exact .inl
  · rcases threads_apply hth' with ⟨-, hn⟩ | ⟨-, hn⟩ | ⟨-, hold⟩
    · exact .inr (removes_turn (hbase.wf t th hth) (turn_plan hn) hremoves)
    · obtain ⟨r', ok, -, -, rfl⟩ := spawn_plan hn
      cases hremoves.1
    · exact .inl (.inr ⟨t', th', hold, hremoves⟩)

theorem lt_of_removed (hbase : Base backend s) (hth : s.threads t = some th)
    (hr : r < (s.apply t (plan backend s th c)).nextRef)
    (h : Removed (s.apply t (plan backend s th c)) r) : r < s.nextRef :=
  lt_of_recorded (fun _ _ => rfl) (fun _ _ h => h.2.1) hbase hth hr h

theorem removed_addVM (hbase : Base backend s) {cfg : Config} {id : Text} (hr : r < s.nextRef + 1)
    (h : Removed (s.addVM (Obj.new id cfg)) r) : r < s.nextRef ∧ Removed s r :=
  recorded_addVM (fun _ _ => rfl) (fun _ _ h => h.2.1) hbase hr h

theorem removed_addThread {op : Op} {key : Text} (h : Removed (s.addThread (callThread op key)) r) :
    Removed s r :=
  recorded_addThread (fun _ _ h => h.2.1) h

theorem lookup_eq_none_apply (hr : r < s.nextRef) (h : s.vms.lookup (s.objs r).id = none) :
    (s.apply t (plan backend s th c)).vms.lookup (s.objs r).id = none := by
  rw [vms_apply]
  rcases store_plan backend s th c with hkeep | ⟨r', -, herase, -⟩ | ⟨r', -, -, hfresh, hcreate⟩
  · rw [hkeep]
    exact h
  · rw [herase]
    rcases eq_or_ne (s.objs r).id (s.objs r').id with heq | hne
    · rw [heq]
      exact AList.lookup_erase _ s.vms
    · exact (AList.lookup_erase_ne hne).trans h
  · rw [hcreate]
    exact (AList.lookup_insert_ne (hfresh.2 r hr)).trans h

def Gone (s : Sys) : Prop :=
  ∀ r < s.nextRef, Removed s r → s.vms.lookup (s.objs r).id = none

theorem gone_init : Gone init := nofun

theorem Gone.step (h : Gone s) (hbase : Base backend s) (a : Action) :
    Gone (step backend s a) := by
  refine step_induction h (fun cfg id hfresh => ?_) (fun op key _ => ?_) fun t c th _ hth => ?_
  · intro r hr hremoved
    obtain ⟨hlt, hremoved⟩ := removed_addVM hbase hr hremoved
    rw [objs_addVM hlt]
    exact (AList.lookup_insert_ne (hfresh.2 r hlt)).trans (h r hlt hremoved)
  · exact fun r hr hremoved => h r hr (removed_addThread hremoved)
  · intro r hr hremoved
    have hlt := lt_of_removed hbase hth hr hremoved
    rw [(id_apply hlt).1]
    rcases removed_advance hbase hth hlt hremoved with hbefore | ⟨href, hpc, hmem⟩
    · exact lookup_eq_none_apply hlt (h r hlt hbefore)
    · have herase : (plan backend s th c).store = .erase (s.objs r).id := by
        simp only [plan, hpc, href, planBody, if_pos hmem]
      rw [vms_apply, herase]
      exact AList.lookup_erase _ s.vms

/-! ## QEMU: what may replace a VM -/

def Pc.starts : Pc → Bool
  | .body .toStarting | .body .launch | .body .toRunning | .body .publish
  | .body (.spawnMonitor _) => true
  | _ => false

/-- The thread, or what it starts, may come to create a replacement of the VM. -/
def Thread.MayReplace (s : Sys) (th : Thread) (r : Ref) : Prop :=
  th.Heads s r ∨ th.op = .start ∧ th.ref = some r ∧ th.pc.starts = true ∧
    (s.objs r).cfg.policy ≠ .never
deriving Decidable

/-- When a `Remove` deletes a VM from the store, nothing is under way that may
replace the VM. -/
def RemovesAlone (s : Sys) : Action → Prop
  | .advance t _ => ∀ th ∈ s.threads t, th.pc = .body .delete → ∀ r ∈ th.ref,
      (s.objs r).id ∈ s.vms → ∀ t' < s.nextThread, ∀ th' ∈ s.threads t', ¬ th'.MayReplace s r
  | _ => True

instance (s : Sys) : ∀ a, Decidable (RemovesAlone s a)
  | .advance _ _ =>
    inferInstanceAs (Decidable (∀ th ∈ _, _ → ∀ r ∈ _, _ → ∀ t' < _, ∀ th' ∈ _, _))
  | .create _ _ | .call _ _ => .isTrue trivial

theorem mayReplace_congr {s' : Sys} (h : (s'.objs r).cfg = (s.objs r).cfg) :
    th.MayReplace s' r ↔ th.MayReplace s r := by
  rw [Thread.MayReplace, Thread.MayReplace, heads_congr h, h]

theorem mem_refs_of_mayReplace (h : th.MayReplace s r) : r ∈ th.refs := by
  rcases h with hheads | ⟨-, href, -⟩
  · simp [Thread.refs, hheads.2.1]
  · simp [Thread.refs, href]

theorem mayReplace_turn (hwf : th.Wf .qemu) (hturn : Turn .qemu s th c n) (h : n.MayReplace s r) :
    th.MayReplace s r ∨ ∃ id, s.vms.lookup id = some r := by
  have hfits := hwf.fits
  rcases h with hheads | ⟨hop, href, hstarts, hpolicy⟩
  · exact .inl (.inl (heads_turn hwf hturn hheads))
  cases hturn with
  | stay r₀ pc pc' href₀ hpc ch hgoes =>
    have hops : Op.start ∈ pc.ops := (show th.op = .start from hop) ▸ hwf.op_mem hpc
    refine .inl (.inr ⟨hop, href, ?_, hpolicy⟩)
    rw [hpc]
    cases pc with
    | toStarting | launch | toRunning | publish | spawnMonitor => rfl
    | finish => cases hgoes.edge
    | _ => exact absurd hops (by simp [BodyPc.ops])
  | lookup | claim | recheck | start => cases hstarts
  | restart => cases hop
  | enter r₀ n hn hpc =>
    cases hn
    have hop : th.op = .start := hop
    have hr : r₀ = r := by simpa [hop] using href
    rcases hpc with ⟨key, -, -, hres⟩ | hpc
    · exact .inr (hr ▸ mem_of_resolve hres)
    · rw [hpc] at hfits
      cases hfits.2.1
  | wake r₀ pc href₀ hpc hpc' =>
    rcases hpc' with ⟨-, rfl⟩ | ⟨hfc, -⟩
    · cases hstarts
    · cases hfc
  | «return» ok n hn =>
    rcases return_eq_some hn with ⟨caller, -, rfl⟩ | ⟨-, -, hfc, -⟩
    · cases hop
    · cases hfc

theorem mayReplace_spawn (hwf : th.Wf .qemu) (hn : (plan .qemu s th c).spawn = some n)
    (h : n.MayReplace s r) :
    th.MayReplace s r := by
  obtain ⟨r', ok, href, hpc, rfl⟩ := spawn_plan hn
  have hop : th.op = .start := by
    have hmem : th.op = .start ∨ th.op = .snapshotRestore := by
      simpa [BodyPc.ops] using hwf.op_mem hpc
    exact hmem.resolve_right fun hsnap => by cases hwf.snapshots (.inr hsnap)
  rcases h with ⟨-, href', hheads⟩ | ⟨hstart, -⟩
  · cases href'
    exact .inr ⟨hop, href, by rw [hpc]; rfl, of_decide_eq_true hheads⟩
  · cases hstart

def Unreplaced (s : Sys) : Prop :=
  ∀ r < s.nextRef, Removed s r → ∀ t th, s.threads t = some th → ¬ th.MayReplace s r

theorem unreplaced_init : Unreplaced init := nofun

variable {a : Action}

namespace Unreplaced

theorem advance (h : Unreplaced s) (hbase : Base .qemu s) (hgone : Gone s)
    (hth : s.threads t = some th) (hcond : RemovesAlone s (.advance t c)) :
    Unreplaced (s.apply t (plan .qemu s th c)) := by
  intro r hr hremoved t' th' hth' hmay
  have hlt := lt_of_removed hbase hth hr hremoved
  have hwf := hbase.wf t th hth
  have hmay : th'.MayReplace s r := (mayReplace_congr (id_apply hlt).2).mp hmay
  have hremoved := removed_advance hbase hth hlt hremoved
  -- Nothing could before the step.
  have hnone : ∀ t' th', s.threads t' = some th' → ¬ th'.MayReplace s r := by
    rcases hremoved with hbefore | ⟨href, hpc, hmem⟩
    · exact h r hlt hbefore
    · exact fun t' th' hth' =>
        hcond th hth hpc r href hmem t' (hbase.lt_nextThread hth') th' hth'
  rcases threads_apply hth' with ⟨-, hn⟩ | ⟨-, hn⟩ | ⟨-, hold⟩
  · rcases mayReplace_turn hwf (turn_plan hn) hmay with hmay | ⟨id, hid⟩
    · exact hnone t th hth hmay
    · rcases hremoved with hbefore | ⟨href, hpc, hmem⟩
      · have hfound := (hbase.ids.vms id r hid).2 ▸ hid
        cases (hgone r hlt hbefore).symm.trans hfound
      · -- A `Remove` is not a `Start`, nor does it head for a replacement.
        have hop : th.op = .remove := hwf.op_eq hpc rfl
        simp only [plan, hpc, href, planBody, if_pos hmem, Thread.goto] at hn
        cases hn
        rcases hmay with ⟨hop', -⟩ | ⟨hop', -⟩
        · rcases hop' with hop' | hop' <;> cases hop.symm.trans hop'
        · cases hop.symm.trans hop'
  · exact hnone t th hth (mayReplace_spawn hwf hn hmay)
  · exact hnone t' th' hold hmay

theorem step (h : Unreplaced s) (hbase : Base .qemu s) (hgone : Gone s) (hcond : RemovesAlone s a) :
    Unreplaced (step .qemu s a) := by
  refine step_induction h (fun cfg id _ => ?_) (fun op key _ => ?_) fun t c th ha hth => ?_
  · intro r hr hremoved t th hth hmay
    obtain ⟨hlt, hremoved⟩ := removed_addVM hbase hr hremoved
    exact h r hlt hremoved t th hth
      ((mayReplace_congr (by rw [objs_addVM hlt])).mp hmay)
  · intro r hr hremoved t th hth hmay
    rcases threads_addThread hth with ⟨-, rfl⟩ | hold
    · cases mem_refs_of_mayReplace hmay
    · exact h r hr (removed_addThread hremoved) t th hold hmay
  · subst ha
    exact h.advance hbase hgone hth hcond

end Unreplaced

/-! ## Both managers -/

/-- What keeps a removed VM from being replaced. -/
def SafeRemoval : Backend → Sys → Action → Prop
  | .qemu => RemovesAlone
  | .firecracker => LooksUpOwn

instance (s : Sys) (a : Action) : ∀ backend, Decidable (SafeRemoval backend s a) := by
  intro backend
  cases backend <;> unfold SafeRemoval <;> infer_instance

theorem qemu_not_removed {acts : List Action}
    (hsafe : AllSteps (step .qemu) RemovesAlone init acts) {old : Ref}
    (hcreates : Creates (run (step .qemu) init acts) a old) :
    ¬ Removed (run (step .qemu) init acts) old := by
  obtain ⟨hbase, -, hunreplaced⟩ :=
    run_invariant_of_allSteps (I := fun s => Base .qemu s ∧ Gone s ∧ Unreplaced s)
      (fun s a h ha => ⟨h.1.step a, h.2.1.step h.1 a, h.2.2.step h.1 h.2.1 ha⟩)
      ⟨base_init, gone_init, unreplaced_init⟩ hsafe
  obtain ⟨t, c, th, -, hth, hpc, href, -⟩ := hcreates
  have hop : th.op = .restart := (hbase.wf t th hth).op_eq hpc rfl
  intro hremoved
  exact hunreplaced old (hbase.refs t th hth old (by simp [Thread.refs, href])) hremoved t th hth
    (.inl ⟨.inr hop, href, by rw [hpc]; rfl⟩)

theorem firecracker_not_removed {acts : List Action}
    (hsafe : AllSteps (step .firecracker) LooksUpOwn init acts) {old : Ref}
    (hcreates : Creates (run (step .firecracker) init acts) a old) :
    ¬ Removed (run (step .firecracker) init acts) old := by
  obtain ⟨hbase, hgone, howned⟩ :=
    run_invariant_of_allSteps (I := fun s => Base .firecracker s ∧ Gone s ∧ Owned s)
      (fun s a h ha => ⟨h.1.step a, h.2.1.step h.1 a, h.2.2.step h.1 ha⟩)
      ⟨base_init, gone_init, owned_init⟩ hsafe
  obtain ⟨t, c, th, -, hth, hpc, href, -⟩ := hcreates
  have hfits := (hbase.wf t th hth).fits
  rw [hpc] at hfits
  -- The restart has the claim on its VM, which is therefore in the store.
  have hstored := howned.stored t th old hth
    (.inr ⟨⟨_, .self _ old hpc href (hfits.2.2.mpr ⟨rfl, rfl⟩)⟩, not_deleted_of_pc (by simp [hpc])⟩)
  intro hremoved
  have hnone := hgone old (hbase.refs t th hth old (by simp [Thread.refs, href])) hremoved
  cases hnone.symm.trans hstored

/-- In every run whose removals are safe, no replacement is created of a VM that a
`Remove` has returned success for. -/
theorem removed_never_replaced {backend : Backend} {acts : List Action}
    (hsafe : AllSteps (step backend) (SafeRemoval backend) Sys.init acts) :
    ∀ a old, Creates (run (step backend) Sys.init acts) a old →
      ((run (step backend) Sys.init acts).objs old).removed = false := by
  intro a old hcreates
  rw [Bool.eq_false_iff]
  intro hflag
  cases backend with
  | qemu => exact qemu_not_removed hsafe hcreates (.inl hflag)
  | firecracker => exact firecracker_not_removed hsafe hcreates (.inl hflag)

/-- The first VM is stopped and removed; the second one's guest exits on its own,
and its restart wakes up. -/
def removeStopped (backend : Backend) : List Action :=
  started backend "web".toList webId 0 ++ [.call .stop webId] ++
    steps 2 (claimSteps backend + 5) ++ steps 1 4 ++
    [.call .remove webId] ++ steps 3 (claimSteps backend + 3) ++
    started backend "db".toList dbId 4 ++ steps 5 4 ++ woken 5 backend

theorem removed_never_replaced_stopped :
    (∃ a, Creates (run (step .qemu) Sys.init (removeStopped .qemu)) a 1) ∧
      ((run (step .qemu) Sys.init (removeStopped .qemu)).objs 0).removed = true ∧
      ∀ a old, Creates (run (step .qemu) Sys.init (removeStopped .qemu)) a old →
        ((run (step .qemu) Sys.init (removeStopped .qemu)).objs old).removed = false := by
  refine ⟨⟨.advance 5 ⟨true, 0, "09d2b7e4f6a1".toList⟩, 5, _,
    ⟨.restart, some 1, none, none, .body .create⟩, rfl, ?_, rfl, rfl, ?_⟩, ?_,
    removed_never_replaced ?_⟩
  all_goals decide +kernel

/-- The guest exits, and its monitor leaves a restart behind; the VM is removed,
and the restart wakes up. -/
def removeDuringBackoff : List Action :=
  started .qemu "web".toList webId 0 ++ steps 1 4 ++ [.call .remove webId] ++ steps 2 4 ++
    woken 1 .qemu

/-- QEMU replaces the removed VM, and so does Firecracker if another VM has its id
for a name. -/
theorem removed_then_replaced :
    (∃ a, Creates (run (step .qemu) Sys.init removeDuringBackoff) a 0 ∧
      ((run (step .qemu) Sys.init removeDuringBackoff).objs 0).removed = true) ∧
    ∃ a, Creates (run (step .firecracker) Sys.init removedAndNamed) a 0 ∧
      ((run (step .firecracker) Sys.init removedAndNamed).objs 0).removed = true := by
  refine ⟨⟨.advance 1 ⟨true, 0, dbId⟩, ⟨1, _, ⟨.restart, some 0, none, none, .body .create⟩, rfl,
      ?_, rfl, rfl, ?_⟩, ?_⟩,
    .advance 1 ⟨true, 0, "09d2b7e4f6a1".toList⟩, ⟨1, _,
      ⟨.restart, some 0, some dbId, none, .body .create⟩, rfl, ?_, rfl, rfl, ?_⟩, ?_⟩
  all_goals decide +kernel

end Jerboa.Vm.Lifecycle
