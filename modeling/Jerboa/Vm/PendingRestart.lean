import Jerboa.Vm.Claims

/-!
# Restores and pending restarts

A restore of Firecracker's refuses a VM whose restart is pending.  The monitor
sets that mark after it has moved the VM to stopped, and a restore that looks
between the two finds neither.  Where no monitor of the VM may still restart it
when a restore looks, none is pending when the restore begins.

The argument is a line: a VM has one thread at a time that drives it, may still
restart it or restarts it, and a restore stands at its end.
-/

namespace Jerboa.Vm.Lifecycle

open Net.Address Lib.Run Sys Thread
open Jerboa.Api (State validTransitions)

variable {s : Sys} {t : Nat} {th : Thread} {c : Choice}

/-- The thread is a restart of the VM, or the `Start` such a restart waits for. -/
def Thread.Restarts (th : Thread) (r : Ref) : Prop :=
  (th.op = .restart ∧ th.ref = some r) ∨ ∃ caller, th.caller = some caller ∧ caller.old = r

variable {r : Ref} {n : Thread}

theorem restarts_turn {backend : Backend} (hwf : th.Wf backend) (hturn : Turn backend s th c n)
    (h : n.Restarts r) :
    th.Restarts r ∨ ∃ failed explicit, th.ref = some r ∧
      th.pc = .body (.decide failed explicit) ∧
      shouldRestart (s.objs r) failed explicit = true := by
  cases hturn with
  | stay | lookup | claim | recheck | wake => exact .inl h
  | enter r₀ n hn =>
    cases hn
    rcases h with ⟨hop, href⟩ | hcaller
    · exact .inl (.inl ⟨hop, by simpa [show th.op = .restart from hop] using href⟩)
    · exact .inl (.inr hcaller)
  | restart r₀ failed explicit href hpc hshould =>
    rcases h with ⟨-, href'⟩ | ⟨caller, hcaller, -⟩
    · cases href'
      exact .inr ⟨failed, explicit, href, hpc, hshould⟩
    · cases hcaller
  | start r₀ replacement href hpc =>
    rcases h with ⟨hop, -⟩ | ⟨caller, hcaller, hold⟩
    · cases hop
    · cases hcaller
      exact .inl (.inl ⟨hwf.op_eq hpc rfl, hold ▸ href⟩)
  | «return» ok n hn =>
    rcases return_eq_some hn with ⟨caller, hcaller, rfl⟩ | ⟨-, -, -, rfl⟩
    · rcases h with ⟨-, href⟩ | ⟨caller', hcaller', -⟩
      · exact .inl (.inr ⟨caller, hcaller, Option.some.inj href⟩)
      · cases hcaller'
    · exact .inl h

theorem pending_plan (s : Sys) (th : Thread) (c : Choice) :
    (plan .firecracker s th c).pending = none ∨
      (∃ r failed explicit, th.ref = some r ∧ th.pc = .body (.decide failed explicit) ∧
        shouldRestart (s.objs r) failed explicit = true ∧
        (plan .firecracker s th c).pending = some ((s.objs r).id, true)) ∨
      ∃ r, th.ref = some r ∧ th.pc = .body .clearPending ∧
        (plan .firecracker s th c).next = none ∧
        (plan .firecracker s th c).pending = some ((s.objs r).id, false) := by
  rcases plan_quiet .firecracker s th c with ⟨-, -, hnone⟩ | ⟨r, pc, href, hpc, hquiet, hplan⟩
  · exact .inl hnone
  · rw [hplan]
    cases pc with
    | decide failed explicit =>
      simp only [planBody]
      split
      · next hshould => exact .inr (.inl ⟨r, failed, explicit, href, hpc, hshould, rfl⟩)
      · exact .inl rfl
    | clearPending => exact .inr (.inr ⟨r, href, hpc, rfl, rfl⟩)
    | delete | create =>
      simp only [planBody]
      split <;> exact .inl rfl
    | spawnMonitor | removeOld => exact .inl rfl
    | _ => cases hquiet

/-- The thread drives the VM, may still restart it, or restarts it. -/
def Thread.Follows (s : Sys) (th : Thread) (r : Ref) : Prop :=
  th.Drives r ∨ th.Heads s r ∨ th.Restarts r

theorem mem_refs_of_follows (h : th.Follows s r) : r ∈ th.refs := by
  rcases h with hdrives | hheads | ⟨-, href⟩ | ⟨caller, hcaller, rfl⟩
  · simp [refs, hdrives.1]
  · simp [refs, hheads.2.1]
  · simp [refs, href]
  · simp [refs, hcaller]

theorem follows_congr {s' : Sys} (h : (s'.objs r).cfg = (s.objs r).cfg) :
    th.Follows s' r ↔ th.Follows s r := by
  rw [Thread.Follows, Thread.Follows, heads_congr h]

theorem heads_of_shouldRestart (hwf : th.Wf .firecracker) {failed explicit : Bool}
    (href : th.ref = some r) (hpc : th.pc = .body (.decide failed explicit))
    (hshould : shouldRestart (s.objs r) failed explicit = true) : th.Heads s r := by
  refine ⟨.inl (hwf.op_eq hpc rfl), href, ?_⟩
  rw [hpc]
  exact answers_of_shouldRestart hshould

theorem follows_next (hwf : th.Wf .firecracker) (hbusy : ∀ r, th.Drives r → ¬ (s.objs r).Idle)
    (hn : (plan .firecracker s th c).next = some n) (h : n.Follows s r) :
    th.Follows s r ∨ th.Takes s r ∧ n.Drives r := by
  rcases h with hdrives | hheads | hrestarts
  · exact ((driveStep_plan hwf hbusy).mine n (.inl hn) r hdrives).imp .inl fun h => ⟨h, hdrives⟩
  · exact .inl (.inr (.inl (heads_turn hwf (turn_plan hn) hheads)))
  · rcases restarts_turn hwf (turn_plan hn) hrestarts with
      hrestarts | ⟨failed, explicit, href, hpc, hshould⟩
    · exact .inl (.inr (.inr hrestarts))
    · exact .inl (.inr (.inl (heads_of_shouldRestart hwf href hpc hshould)))

theorem follows_spawn (hn : (plan .firecracker s th c).spawn = some n) (h : n.Follows s r) :
    th.Drives r ∧ ∃ ok, th.pc = .body (.spawnMonitor ok) := by
  obtain ⟨r', ok, href, hpc, rfl⟩ := spawn_plan hn
  have hr : r = r' := by
    have hmem := mem_refs_of_follows h
    simpa [monitorThread, refs, Pc.refs] using hmem
  subst hr
  exact ⟨⟨href, _, hpc, rfl⟩, ok, hpc⟩

theorem created_of_advance {backend : Backend} (hr : r < s.nextRef) :
    ((s.apply t (plan backend s th c)).objs r).state = .created →
      (s.objs r).state = .created := by
  refine objs_advance (P := fun v => v.state = .created → (s.objs r).state = .created) hr id
    fun f hf => ?_
  cases hf with
  | transition r next href hvalid =>
    rintro rfl
    cases hstate : (s.objs r).state <;> simp [hstate, validTransitions] at hvalid
  | beginRestore | rollback => simp
  | mark | launched | count | stopped | removed => exact id

/-! ## The invariant -/

def Sys.Unwatched (s : Sys) (r : Ref) : Prop :=
  ∀ t < s.nextThread, ∀ th ∈ s.threads t, th.op = .monitor → ¬ th.Heads s r

instance (s : Sys) (r : Ref) : Decidable (s.Unwatched r) :=
  inferInstanceAs (Decidable (∀ t < _, ∀ th ∈ _, _ → _))

/-- When a restore finds no restart pending, no monitor of the VM may still
restart it. -/
def RestoresAlone (s : Sys) : Action → Prop
  | .advance t _ => ∀ th ∈ s.threads t, th.pc = .body .checkPending → ∀ r ∈ th.ref,
      s.pending (s.objs r).id = false → s.Unwatched r
  | _ => True

instance (s : Sys) : ∀ a, Decidable (RestoresAlone s a)
  | .advance _ _ => inferInstanceAs (Decidable (∀ th ∈ _, _ → ∀ r ∈ _, _ → _))
  | .create _ _ | .call _ _ => .isTrue trivial

/-- A restore that has found no restart pending, and has not begun. -/
def Thread.Restores (th : Thread) (r : Ref) : Prop :=
  th.ref = some r ∧ (th.pc = .body .checkRestorable ∨ th.pc = .body .verify ∨
    th.pc = .body .beginRestore)

structure Lined (s : Sys) : Prop where
  one : ∀ t t' th th' r, s.threads t = some th → s.threads t' = some th' → th.Follows s r →
    th'.Follows s r → t = t'
  begun : ∀ t th r, s.threads t = some th → th.Follows s r → (s.objs r).state ≠ .created
  pending : ∀ t th r, s.threads t = some th → th.Restarts r → s.pending (s.objs r).id = true
  alone : ∀ t th r, s.threads t = some th → th.Restores r → s.pending (s.objs r).id = false ∧
    ∀ t' th', s.threads t' = some th' → ¬ th'.Heads s r ∧ ¬ th'.Restarts r

theorem lined_init : Lined init where
  one _ _ _ _ _ h := by cases h
  begun _ _ _ h := by cases h
  pending _ _ _ h := by cases h
  alone _ _ _ h := by cases h

namespace Lined

variable {th' : Thread} {t' : Nat}

theorem not_takes (h : Lined s) (hdriven : Driven s) (hth : s.threads t = some th)
    (htakes : th.Takes s r) (hth' : s.threads t' = some th') :
    ¬ th'.Follows s r := by
  intro hfollows
  obtain ⟨href, ⟨-, hcreated⟩ | ⟨hpc, hstopped⟩⟩ := htakes
  · exact h.begun t' th' r hth' hfollows hcreated
  · obtain ⟨hheads, hrestarts⟩ := (h.alone t th r hth ⟨href, .inr (.inr hpc)⟩).2 t' th' hth'
    rcases hfollows with hdrives | hheads' | hrestarts'
    · exact hdriven.busy t' th' r hth' hdrives (.inr hstopped)
    · exact hheads hheads'
    · exact hrestarts hrestarts'

theorem not_follows_of_spawn (hbase : Base .firecracker s) (howned : Owned s)
    (hth : s.threads t = some th) {ok : Bool} (hpc : th.pc = .body (.spawnMonitor ok))
    (href : th.ref = some r) (hn : th.goto (.finish ok) = some n) :
    ¬ n.Follows s r := by
  have hwf := hbase.wf t th hth
  have hfits := hwf.fits
  rw [hpc] at hfits
  have hop : th.op = .start ∨ th.op = .snapshotRestore := by simpa [BodyPc.ops] using hfits.1
  cases hn
  rintro (hdrives | hheads | ⟨hrestart, -⟩ | ⟨caller, hcaller, rfl⟩)
  · obtain ⟨-, pc, hbody, hpcDrives⟩ := hdrives
    cases hbody
    cases hpcDrives
  · cases hheads.2.2
  · rcases hop with hop | hop <;> cases hop.symm.trans hrestart
  · -- The restart that waits holds the claim on its own VM.
    have hself : th.Owns th.op caller.old := .self _ _ hpc href (hfits.2.2.mpr ⟨rfl, rfl⟩)
    have hwaits : th.Owns .restart caller.old :=
      .caller caller hcaller ((hwf.caller caller hcaller).2.mpr rfl)
    have hfaithful := howned.faithful t th hth
    have heq := List.inj_on_of_nodup_map (hbase.exclusive.nodup t th hth)
      (mem_holdings_of_owns hfaithful hself) (mem_holdings_of_owns hfaithful hwaits) rfl
    have hrestart : th.op = .restart := congrArg Prod.snd heq
    rcases hop with hop | hop <;> cases hop.symm.trans hrestart

theorem one_advance (h : Lined s) (hbase : Base .firecracker s) (hdriven : Driven s)
    (howned : Owned s) (hth : s.threads t = some th) {t₁ t₂ : Nat} {th₁ th₂ : Thread}
    (hth₁ : (s.apply t (plan .firecracker s th c)).threads t₁ = some th₁)
    (hth₂ : (s.apply t (plan .firecracker s th c)).threads t₂ = some th₂) (h₁ : th₁.Follows s r)
    (h₂ : th₂.Follows s r) : t₁ = t₂ := by
  have hwf := hbase.wf t th hth
  have hbusy := fun r => hdriven.busy t th r hth
  -- Of the thread that made the step and one that did not, one follows.
  have hnext : ∀ n t' th', (plan .firecracker s th c).next = some n → t' ≠ t →
      s.threads t' = some th' → n.Follows s r → ¬ th'.Follows s r := by
    intro n t' th' hn hne hth' hfollows hfollows'
    rcases follows_next hwf hbusy hn hfollows with hfollows | ⟨htakes, -⟩
    · exact hne (h.one t' t th' th r hth' hth hfollows' hfollows)
    · exact h.not_takes hdriven hth htakes hth' hfollows'
  have hspawn : ∀ n t' th', (plan .firecracker s th c).spawn = some n → t' ≠ t →
      s.threads t' = some th' → n.Follows s r → ¬ th'.Follows s r := by
    intro n t' th' hn hne hth' hfollows hfollows'
    exact hne (h.one t' t th' th r hth' hth hfollows' (.inl (follows_spawn hn hfollows).1))
  have hboth : ∀ n m, (plan .firecracker s th c).next = some n →
      (plan .firecracker s th c).spawn = some m → n.Follows s r → ¬ m.Follows s r := by
    intro n m hn hm hfollows' hfollows
    obtain ⟨⟨href, -⟩, ok, hpc⟩ := follows_spawn hm hfollows
    refine not_follows_of_spawn hbase howned hth hpc href ?_ hfollows'
    rw [← hn]
    simp only [plan, hpc, href, planBody]
  by_contra hne
  exact pairwise_apply (R := fun th th' => th.Follows s r → ¬ th'.Follows s r)
    (fun _ _ hR h h' => hR h' h)
    (fun t t' th th' hth hth' hne h₁ h₂ => hne (h.one t t' th th' r hth hth' h₁ h₂))
    (fun n hn t' th' hne hth' => hn.elim (hnext n t' th' · hne hth') (hspawn n t' th' · hne hth'))
    hboth hth₁ hth₂ hne h₁ h₂

theorem begun_advance (h : Lined s) (hbase : Base .firecracker s) (hdriven : Driven s)
    (hth : s.threads t = some th) (hr : r < s.nextRef)
    (hth' : (s.apply t (plan .firecracker s th c)).threads t' = some th')
    (hfollows : th'.Follows s r) :
    ((s.apply t (plan .firecracker s th c)).objs r).state ≠ .created := by
  intro hcreated
  have hbefore := created_of_advance hr hcreated
  rcases threads_apply hth' with ⟨-, hn⟩ | ⟨-, hn⟩ | ⟨-, hold⟩
  · rcases follows_next (hbase.wf t th hth) (fun r => hdriven.busy t th r hth) hn hfollows with
      hfollows | ⟨-, hdrives⟩
    · exact h.begun t th r hth hfollows hbefore
    · exact (hdriven.advance hbase hth c).busy t' th' r hth' hdrives (.inl hcreated)
  · exact hdriven.busy t th r hth (follows_spawn hn hfollows).1 (.inl hbefore)
  · exact h.begun t' th' r hold hfollows hbefore

theorem pending_advance (h : Lined s) (hbase : Base .firecracker s) (hth : s.threads t = some th)
    (hr : r < s.nextRef) (hth' : (s.apply t (plan .firecracker s th c)).threads t' = some th')
    (hrestarts : th'.Restarts r) :
    (s.apply t (plan .firecracker s th c)).pending (s.objs r).id = true := by
  have hwf := hbase.wf t th hth
  rw [pending_apply]
  -- The mark is there before the step, or the step sets it.
  have hset : s.pending (s.objs r).id = true ∨
      (plan .firecracker s th c).pending = some ((s.objs r).id, true) := by
    rcases threads_apply hth' with ⟨-, hn⟩ | ⟨-, hn⟩ | ⟨-, hold⟩
    · rcases restarts_turn hwf (turn_plan hn) hrestarts with
        hrestarts | ⟨failed, explicit, href, hpc, hshould⟩
      · exact .inl (h.pending t th r hth hrestarts)
      · refine .inr ?_
        simp only [plan, hpc, href, planBody, hshould, if_true]
    · obtain ⟨r', ok, -, -, rfl⟩ := spawn_plan hn
      rcases hrestarts with ⟨hop, -⟩ | ⟨caller, hcaller, -⟩
      · cases hop
      · cases hcaller
    · exact .inl (h.pending t' th' r hold hrestarts)
  rcases pending_plan s th c with
    hnone | ⟨r₀, failed, explicit, -, -, -, hmark⟩ | ⟨r₀, href, hpc, hnext, hclear⟩
  · rw [hnone] at hset ⊢
    exact hset.resolve_right (by simp)
  · rw [hmark] at hset ⊢
    rcases eq_or_ne (s.objs r).id (s.objs r₀).id with heq | hne
    · simp [heq]
    · simp only [Function.update_of_ne hne]
      exact hset.resolve_right fun hsome =>
        hne (congrArg Prod.fst (Option.some.inj hsome)).symm
  · rw [hclear] at hset ⊢
    rcases eq_or_ne (s.objs r).id (s.objs r₀).id with heq | hne
    · -- The restart that is done was the only one.
      exfalso
      have hop : th.op = .restart := hwf.op_eq hpc rfl
      have hr₀ : r₀ < s.nextRef := hbase.refs t th hth r₀ (by simp [refs, href])
      cases hbase.ids.inj r hr r₀ hr₀ heq
      rcases threads_apply hth' with ⟨-, hn⟩ | ⟨-, hn⟩ | ⟨hne, hold⟩
      · cases hnext.symm.trans hn
      · obtain ⟨r', ok, -, hpc', -⟩ := spawn_plan hn
        cases hpc.symm.trans hpc'
      · exact hne (h.one t' t th' th r hold hth (.inr (.inr hrestarts))
          (.inr (.inr (.inl ⟨hop, href⟩))))
    · simp only [Function.update_of_ne hne]
      exact hset.resolve_right fun hsome => by cases congrArg Prod.snd (Option.some.inj hsome)

theorem restores_edge {fresh : Ref} {pc pc' : BodyPc} {ch : Change}
    (h : (ch, pc') ∈ pc.edges fresh)
    (hpc' : pc' = .checkRestorable ∨ pc' = .verify ∨ pc' = .beginRestore) :
    pc = .checkPending ∧ pc' = .checkRestorable ∨ pc = .checkRestorable ∨ pc = .verify := by
  rcases hpc' with rfl | rfl | rfl <;> cases pc <;> simp [BodyPc.edges] at h ⊢

theorem restores_turn (hturn : Turn .firecracker s th c n) (h : n.Restores r) :
    th.Restores r ∨ th.ref = some r ∧ th.pc = .body .checkPending ∧
      s.pending (s.objs r).id = false := by
  obtain ⟨href, hpc'⟩ := h
  cases hturn with
  | stay r₀ pc pc' href₀ hpc ch hgoes =>
    have href : th.ref = some r := href
    cases href₀.symm.trans href
    rcases restores_edge hgoes.edge (by simpa using hpc') with ⟨rfl, rfl⟩ | rfl | rfl
    · have hif := goto_inj hgoes.next
      split at hif
      · cases hif
      · next hpending => exact .inr ⟨href, hpc, by simpa using hpending⟩
    · exact .inl ⟨href, .inl hpc⟩
    · exact .inl ⟨href, .inr (.inl hpc)⟩
  | lookup | claim | recheck | restart | start => rcases hpc' with h | h | h <;> cases h
  | enter r₀ n hn =>
    cases hn
    cases hop : th.op <;> simp [hop, entry] at hpc'
  | wake r₀ pc href₀ hpc hpc₁ =>
    rcases hpc₁ with ⟨hqemu, -⟩ | ⟨-, rfl⟩
    · cases hqemu
    · simp at hpc'
  | «return» ok n hn =>
    rcases return_eq_some hn with ⟨caller, -, rfl⟩ | ⟨-, -, -, rfl⟩
    · cases ok <;> simp at hpc'
    · simp at hpc'

theorem not_spawns (hbase : Base .firecracker s) (hth : s.threads t = some th)
    (href : th.ref = some r) {ok : Bool} (hpc : th.pc = .body (.spawnMonitor ok))
    (hth' : (s.apply t (plan .firecracker s th c)).threads t' = some th') :
    ¬ th'.Restores r := by
  rintro ⟨href', hpc'⟩
  rcases threads_apply hth' with ⟨-, hn⟩ | ⟨-, hn⟩ | ⟨hne, hold⟩
  · simp only [plan, hpc, href, planBody, goto] at hn
    cases hn
    simp at hpc'
  · obtain ⟨r', ok', -, -, rfl⟩ := spawn_plan hn
    rcases hpc' with hpc' | hpc' | hpc' <;> cases hpc'
  · have hop : th.op ≠ .restart := by
      have hmem : th.op = .start ∨ th.op = .snapshotRestore := by
        simpa [BodyPc.ops] using (hbase.wf t th hth).op_mem hpc
      rcases hmem with hop | hop <;> simp [hop]
    have hwf' := hbase.wf t' th' hold
    rcases hpc' with hpc' | hpc' | hpc' <;>
      (have hop' : th'.op = .snapshotRestore := hwf'.op_eq hpc' rfl
       exact hne (hbase.one_call hold hth (by simp [hop']) hop hpc' hpc rfl rfl href' href))

theorem alone_advance (h : Lined s) (hbase : Base .firecracker s) (hth : s.threads t = some th)
    (hcond : RestoresAlone s (.advance t c)) (hr : r < s.nextRef)
    (hth' : (s.apply t (plan .firecracker s th c)).threads t' = some th')
    (hrestores : th'.Restores r) :
    (s.apply t (plan .firecracker s th c)).pending (s.objs r).id = false ∧
      ∀ t₁ th₁, (s.apply t (plan .firecracker s th c)).threads t₁ = some th₁ →
        ¬ th₁.Heads s r ∧ ¬ th₁.Restarts r := by
  have hwf := hbase.wf t th hth
  -- It is so before the step.
  have hbefore : s.pending (s.objs r).id = false ∧
      ∀ t₁ th₁, s.threads t₁ = some th₁ → ¬ th₁.Heads s r ∧ ¬ th₁.Restarts r := by
    rcases threads_apply hth' with ⟨-, hn⟩ | ⟨-, hn⟩ | ⟨-, hold⟩
    · rcases restores_turn (turn_plan hn) hrestores with hrestores | ⟨href, hpc, hpending⟩
      · exact h.alone t th r hth hrestores
      · refine ⟨hpending, fun t₁ th₁ hth₁ => ?_⟩
        have hnot : ¬ th₁.Restarts r := fun hrestarts =>
          by cases hpending.symm.trans (h.pending t₁ th₁ r hth₁ hrestarts)
        refine ⟨fun hheads => ?_, hnot⟩
        rcases hheads.1 with hmonitor | hrestart
        · exact hcond th hth hpc r href hpending t₁ (hbase.lt_nextThread hth₁) th₁ hth₁ hmonitor
            hheads
        · exact hnot (.inl ⟨hrestart, hheads.2.1⟩)
    · obtain ⟨r', ok, -, -, rfl⟩ := spawn_plan hn
      rcases hrestores.2 with hpc | hpc | hpc <;> cases hpc
    · exact h.alone t' th' r hold hrestores
  constructor
  · rw [pending_apply]
    rcases pending_plan s th c with
      hnone | ⟨r₀, failed, explicit, href, hpc, hshould, hmark⟩ | ⟨r₀, -, -, -, hclear⟩
    · rw [hnone]
      exact hbefore.1
    · rw [hmark]
      have hne : (s.objs r).id ≠ (s.objs r₀).id := by
        intro heq
        have hr₀ : r₀ < s.nextRef := hbase.refs t th hth r₀ (by simp [refs, href])
        cases hbase.ids.inj r hr r₀ hr₀ heq
        exact (hbefore.2 t th hth).1 (heads_of_shouldRestart hwf href hpc hshould)
      simp only [Function.update_of_ne hne]
      exact hbefore.1
    · rw [hclear]
      simp only [Function.update_apply]
      split
      · rfl
      · exact hbefore.1
  · intro t₁ th₁ hth₁
    rcases threads_apply hth₁ with ⟨-, hn⟩ | ⟨-, hn⟩ | ⟨-, hold⟩
    · refine ⟨fun hheads => (hbefore.2 t th hth).1 (heads_turn hwf (turn_plan hn) hheads),
        fun hrestarts => ?_⟩
      rcases restarts_turn hwf (turn_plan hn) hrestarts with
        hrestarts | ⟨failed, explicit, href, hpc, hshould⟩
      · exact (hbefore.2 t th hth).2 hrestarts
      · exact (hbefore.2 t th hth).1 (heads_of_shouldRestart hwf href hpc hshould)
    · -- Who starts a monitor of the VM has the claim the restore has.
      obtain ⟨r₁, ok, href, hpc, rfl⟩ := spawn_plan hn
      have hne : r₁ ≠ r := by
        rintro rfl
        exact not_spawns hbase hth href hpc hth' hrestores
      refine ⟨fun hheads => hne (Option.some.inj hheads.2.1), ?_⟩
      rintro (⟨hop, -⟩ | ⟨caller, hcaller, -⟩)
      · cases hop
      · cases hcaller
    · exact hbefore.2 t₁ th₁ hold

theorem advance (h : Lined s) (hbase : Base .firecracker s) (hdriven : Driven s)
    (howned : Owned s) (hth : s.threads t = some th) (hcond : RestoresAlone s (.advance t c)) :
    Lined (s.apply t (plan .firecracker s th c)) := by
  have hlt := fun {t' : Nat} {th' : Thread} {r : Ref}
    (hth' : (s.apply t (plan .firecracker s th c)).threads t' = some th') (hr : r ∈ th'.refs) =>
      hbase.refs_advance hth hth' hr
  have hfollows : ∀ {t' th' r}, (s.apply t (plan .firecracker s th c)).threads t' = some th' →
      th'.Follows (s.apply t (plan .firecracker s th c)) r → th'.Follows s r :=
    fun hth' h' => (follows_congr (id_apply (hlt hth' (mem_refs_of_follows h'))).2).mp h'
  refine ⟨fun t₁ t₂ th₁ th₂ r hth₁ hth₂ h₁ h₂ => ?_, fun t' th' r hth' h' => ?_,
    fun t' th' r hth' h' => ?_, fun t' th' r hth' h' => ?_⟩
  · exact h.one_advance hbase hdriven howned hth hth₁ hth₂ (hfollows hth₁ h₁) (hfollows hth₂ h₂)
  · exact h.begun_advance hbase hdriven hth (hlt hth' (mem_refs_of_follows h')) hth'
      (hfollows hth' h')
  · have hr := hlt hth' (mem_refs_of_follows (s := s) (.inr (.inr h')))
    rw [(id_apply hr).1]
    exact h.pending_advance hbase hth hr hth' h'
  · have hr := hlt hth' (show r ∈ th'.refs by simp [refs, h'.1])
    rw [(id_apply hr).1]
    refine (h.alone_advance hbase hth hcond hr hth' h').imp_right fun hall t₁ th₁ hth₁ => ?_
    rw [heads_congr (id_apply hr).2]
    exact hall t₁ th₁ hth₁

theorem step (h : Lined s) (hbase : Base .firecracker s) (hdriven : Driven s)
    (howned : Owned s) {a : Action} (hcond : RestoresAlone s a) :
    Lined (step .firecracker s a) := by
  refine step_induction h (fun cfg id _ => ?_) (fun op key _ => ?_) fun t c th ha hth => ?_
  · have hobj : ∀ {t th r}, s.threads t = some th → r ∈ th.refs →
        (s.addVM (Obj.new id cfg)).objs r = s.objs r :=
      fun hth hr => objs_addVM (hbase.refs _ _ hth _ hr)
    have hfollows : ∀ {t th r}, s.threads t = some th →
        th.Follows (s.addVM (Obj.new id cfg)) r → th.Follows s r :=
      fun hth h' => (follows_congr (by rw [hobj hth (mem_refs_of_follows h')])).mp h'
    refine ⟨fun t₁ t₂ th₁ th₂ r hth₁ hth₂ h₁ h₂ => ?_, fun t th r hth h' => ?_,
      fun t th r hth h' => ?_, fun t th r hth h' => ?_⟩
    · exact h.one t₁ t₂ th₁ th₂ r hth₁ hth₂ (hfollows hth₁ h₁) (hfollows hth₂ h₂)
    · rw [hobj hth (mem_refs_of_follows h')]
      exact h.begun t th r hth (hfollows hth h')
    · rw [hobj hth (mem_refs_of_follows (s := s) (.inr (.inr h')))]
      exact h.pending t th r hth h'
    · have hsame := hobj hth (show r ∈ th.refs by simp [refs, h'.1])
      rw [hsame]
      refine (h.alone t th r hth h').imp_right fun hall t₁ th₁ hth₁ => ?_
      have hheads : th₁.Heads (s.addVM (Obj.new id cfg)) r ↔ th₁.Heads s r :=
        heads_congr (by rw [hsame])
      rw [hheads]
      exact hall t₁ th₁ hth₁
  · -- A call knows no VM yet.
    have hold : ∀ {t th}, (s.addThread (callThread op key)).threads t = some th →
        th.refs = [] ∨ s.threads t = some th := by
      intro t th hth
      rcases threads_addThread hth with ⟨-, rfl⟩ | hold
      · exact .inl rfl
      · exact .inr hold
    have hknown : ∀ {t th r}, (s.addThread (callThread op key)).threads t = some th →
        r ∈ th.refs → s.threads t = some th := by
      intro t th r hth hr
      rcases hold hth with hnil | hold
      · cases hnil ▸ hr
      · exact hold
    refine ⟨fun t₁ t₂ th₁ th₂ r hth₁ hth₂ h₁ h₂ => ?_, fun t th r hth h' => ?_,
      fun t th r hth h' => ?_, fun t th r hth h' => ?_⟩
    · exact h.one t₁ t₂ th₁ th₂ r (hknown hth₁ (mem_refs_of_follows h₁))
        (hknown hth₂ (mem_refs_of_follows h₂)) h₁ h₂
    · exact h.begun t th r (hknown hth (mem_refs_of_follows h')) h'
    · exact h.pending t th r
        (hknown hth (mem_refs_of_follows (s := s) (.inr (.inr h')))) h'
    · have hmem : r ∈ th.refs := by simp [refs, h'.1]
      have hrestores := h.alone t th r (hknown hth hmem) h'
      refine hrestores.imp_right fun hall t₁ th₁ hth₁ => ?_
      rcases hold hth₁ with hnil | hold₁
      · refine ⟨fun hheads => ?_, fun hrestarts => ?_⟩
        · cases hnil ▸ mem_refs_of_follows (s := s) (.inr (.inl hheads))
        · cases hnil ▸ mem_refs_of_follows (s := s) (.inr (.inr hrestarts))
      · exact hall t₁ th₁ hold₁
  · subst ha
    exact h.advance hbase hdriven howned hth hcond

end Lined

/-! ## What the claims are for -/

structure Orderly (s : Sys) : Prop where
  one : ∀ t t' th th' op op' r, s.threads t = some th → s.threads t' = some th' →
    th.Owns op r → th'.Owns op' r → t = t' ∧ op = op'
  claimed : ∀ t th op r, s.threads t = some th → th.Owns op r →
    s.claims (s.objs r).id = some op
  /-- The VM is in the store until the operation itself has removed it. -/
  stored : ∀ t th op r, s.threads t = some th → th.Owns op r → ¬ th.Deleted →
    s.vms.lookup (s.objs r).id = some r
  /-- A claim that a step ends is that of the operation that makes the step. -/
  release : ∀ a id op, s.claims id = some op → (step .firecracker s a).claims id ≠ some op →
    ∃ t c th, a = .advance t c ∧ s.threads t = some th ∧ th.op = op ∧ th.claimed = some id
  /-- No restart of the VM is pending, or under way, when a restore begins. -/
  restore : ∀ t th r, s.threads t = some th → th.ref = some r → th.pc = .body .beginRestore →
    s.pending (s.objs r).id = false ∧ ∀ t' th', s.threads t' = some th' → ¬ th'.Restarts r

theorem orderly (hbase : Base .firecracker s) (howned : Owned s) (hlined : Lined s) :
    Orderly s where
  one t t' th th' op op' r hth hth' howns howns' := by
    have hmem := mem_holdings_of_owns (howned.faithful t th hth) howns
    have hmem' := mem_holdings_of_owns (howned.faithful t' th' hth') howns'
    have heq : t = t' := by
      by_contra hne
      exact hbase.exclusive.one t t' th th' hth hth' hne _ hmem _ hmem' rfl
    subst heq
    cases hth.symm.trans hth'
    exact ⟨rfl, congrArg Prod.snd
      (List.inj_on_of_nodup_map (hbase.exclusive.nodup t th hth) hmem hmem' rfl)⟩
  claimed t th op r hth howns :=
    hbase.exclusive.held t th hth _ (mem_holdings_of_owns (howned.faithful t th hth) howns)
  stored t th op r hth howns hdeleted := howned.stored t th r hth (.inr ⟨⟨op, howns⟩, hdeleted⟩)
  release a id op hbefore hafter := by
    cases a with
    | create | call =>
      simp only [step] at hafter
      split at hafter <;> exact absurd hbefore hafter
    | advance t c =>
      simp only [step] at hafter
      split at hafter
      · next th hth =>
        rw [claims_apply] at hafter
        exact ⟨t, c, th, rfl, hth,
          Exclusive.own_of_freed (claimStep_plan (hbase.wf t th hth)) hbefore hafter⟩
      · exact absurd hbefore hafter
  restore t th r hth href hpc :=
    (hlined.alone t th r hth ⟨href, .inr (.inr hpc)⟩).imp_right
      fun hall t' th' hth' => (hall t' th' hth').2

/-- In every run in which restarts find their own VM, and no restore looks for a
pending restart while a monitor may still start one, the operations on a VM keep
out of each other's way. -/
theorem claims_orderly {acts : List Action}
    (hcond : AllSteps (step .firecracker) (fun s a => LooksUpOwn s a ∧ RestoresAlone s a)
      Sys.init acts) :
    Orderly (run (step .firecracker) Sys.init acts) := by
  obtain ⟨hbase, -, howned, hlined⟩ :=
    run_invariant_of_allSteps
      (I := fun s => Base .firecracker s ∧ Driven s ∧ Owned s ∧ Lined s)
      (fun s a h ha => ⟨h.1.step a, h.2.1.step h.1 a, h.2.2.1.step h.1 ha.1,
        h.2.2.2.step h.1 h.2.1 h.2.2.1 ha.2⟩)
      ⟨base_init, driven_init, owned_init, lined_init⟩ hcond
  exact orderly hbase howned hlined

/-- The guest exits, and its monitor leaves a restart behind.  A restore finds it
pending and fails; the restart wakes up, finds its VM, and comes to create the
replacement. -/
def restoreDuringBackoff : List Action :=
  started .firecracker "web".toList webId 0 ++ steps 1 4 ++
    [.call .snapshotRestore webId] ++ steps 2 6 ++ woken 1 .firecracker

theorem claims_orderly_backoff :
    (run (step .firecracker) Sys.init restoreDuringBackoff).threads 1 =
        some ⟨.restart, some 0, some webId, none, .body .create⟩ ∧
      (run (step .firecracker) Sys.init restoreDuringBackoff).threads 2 = none ∧
      Orderly (run (step .firecracker) Sys.init restoreDuringBackoff) :=
  ⟨by decide +kernel, by decide +kernel, claims_orderly (by decide +kernel)⟩

/-- The guest exits, and its monitor moves the VM to stopped; a restore finds no
restart pending and the VM stopped; then the monitor leaves a restart behind. -/
def restoreBesideMonitor : List Action :=
  started .firecracker "web".toList webId 0 ++ steps 1 3 ++
    [.call .snapshotRestore webId] ++ steps 2 7 ++ steps 1 1

/-- The guest exits, and its monitor leaves a restart behind.  The VM is removed,
and another one is created that has its id for a name; then the restart wakes
up. -/
def removedAndNamed : List Action :=
  started .firecracker "web".toList webId 0 ++ steps 1 4 ++
    [.call .remove webId] ++ steps 2 7 ++ [.create ⟨webId, .never, 0⟩ dbId] ++
    woken 1 .firecracker

/-- In the first run a restore begins while a restart of its VM is pending.  In
the second a restart works on a VM that is not in the store, under a claim on
another. -/
theorem restore_beside_restart :
    ((run (step .firecracker) Sys.init restoreBesideMonitor).threads 2 =
        some ⟨.snapshotRestore, some 0, some webId, none, .body .beginRestore⟩ ∧
      (run (step .firecracker) Sys.init restoreBesideMonitor).pending webId = true ∧
      ((run (step .firecracker) Sys.init (restoreBesideMonitor ++ steps 2 1)).objs 0).state =
        .restoring ∧
      ¬ Orderly (run (step .firecracker) Sys.init restoreBesideMonitor)) ∧
    (run (step .firecracker) Sys.init removedAndNamed).threads 1 =
        some ⟨.restart, some 0, some dbId, none, .body .create⟩ ∧
      (run (step .firecracker) Sys.init removedAndNamed).vms.lookup webId = none ∧
      ¬ Orderly (run (step .firecracker) Sys.init removedAndNamed) := by
  have hthread : (run (step .firecracker) Sys.init restoreBesideMonitor).threads 2 =
      some ⟨.snapshotRestore, some 0, some webId, none, .body .beginRestore⟩ := by decide +kernel
  have hpending : (run (step .firecracker) Sys.init restoreBesideMonitor).pending
      ((run (step .firecracker) Sys.init restoreBesideMonitor).objs 0).id = true := by
    decide +kernel
  have hrestart : (run (step .firecracker) Sys.init removedAndNamed).threads 1 =
      some ⟨.restart, some 0, some dbId, none, .body .create⟩ := by decide +kernel
  have hgone : (run (step .firecracker) Sys.init removedAndNamed).vms.lookup
      ((run (step .firecracker) Sys.init removedAndNamed).objs 0).id = none := by decide +kernel
  refine ⟨⟨hthread, by decide +kernel, by decide +kernel, fun h => ?_⟩, hrestart,
    by decide +kernel, fun h => ?_⟩
  · cases (h.restore 2 _ 0 hthread rfl rfl).1.symm.trans hpending
  · have hstored := h.stored 1 _ .restart 0 hrestart (.self _ 0 rfl rfl rfl)
      (not_deleted_of_pc (by simp))
    cases hgone.symm.trans hstored

end Jerboa.Vm.Lifecycle
