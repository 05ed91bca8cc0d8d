import Jerboa.Vm.Drivers

/-!
# Claims and the store

What a claim of Firecracker's gives the operation that has it: the VM it works
on is the one claimed, and stays in the store until the operation is done or has
itself removed it.  A restart claims by looking up the id of its VM, and works
on the VM it started with; the two are the same as long as no other VM is named
like that id.
-/

namespace Jerboa.Vm.Lifecycle

open Net.Address Lib.Run Thread
open Jerboa.Api (State validTransitions)

variable {s : Sys} {t : Nat} {th : Thread} {c : Choice}

/-! ## Restarts look up their own VM -/

def Pc.resolves : Pc → Bool
  | .resolve _ => true
  | _ => false

/-- When a restart looks up its VM by the id, no other VM is named so. -/
def LooksUpOwn (s : Sys) : Action → Prop
  | .advance t _ => ∀ th ∈ s.threads t, th.op = .restart → th.pc.resolves = true →
      ∀ r ∈ th.ref, ∀ e ∈ s.vms.entries, (s.objs e.2).cfg.name = (s.objs r).id → e.2 = r
  | _ => True

instance (s : Sys) : ∀ a, Decidable (LooksUpOwn s a) := by
  intro a
  cases a <;> unfold LooksUpOwn <;> infer_instance

theorem resolve_own (hids : Ids s) {old r : Ref} (hold : old < s.nextRef) {pick : Nat}
    (hnames : ∀ e ∈ s.vms.entries, (s.objs e.2).cfg.name = (s.objs old).id → e.2 = old)
    (h : s.resolve (s.objs old).id pick = some r) : r = old := by
  unfold Sys.resolve at h
  split at h
  · next r' hlookup =>
    cases h
    obtain ⟨hr, hid⟩ := hids.vms _ _ hlookup
    exact hids.inj r hr old hold hid
  · split at h
    · next e es hfilter =>
      have hmem : ∀ x ∈ e :: es, x.2 = old := by
        intro x hx
        obtain ⟨hx, hname⟩ := List.mem_filter.mp (hfilter ▸ hx)
        exact hnames x hx (of_decide_eq_true hname)
      rw [← Option.some.inj h]
      exact hmem _ (List.get_mem _ _)
    · split at h
      · next e hfilter =>
        have hmem : e ∈ s.vms.entries.filter fun e => (s.objs old).id.isPrefixOf e.1 :=
          hfilter ▸ List.mem_singleton_self e
        obtain ⟨he, hprefix⟩ := List.mem_filter.mp hmem
        obtain ⟨hr, hid⟩ := hids.vms e.1 e.2 (AList.mem_lookup_iff.mpr he)
        -- Ids are of one length, so the prefix is the whole id.
        have heq : (s.objs old).id = e.1 := by
          refine (List.isPrefixOf_iff_prefix.mp hprefix).eq_of_length ?_
          rw [hids.length old hold, ← hid, hids.length e.2 hr]
        rw [← Option.some.inj h]
        exact hids.inj e.2 hr old hold (hid.trans heq.symm)
      · cases h

structure Thread.Faithful (s : Sys) (th : Thread) : Prop where
  key : ∀ key r, th.op = .restart → th.pc = .resolve key → th.ref = some r →
    key = (s.objs r).id
  target : ∀ r, th.op = .restart → r ∈ th.pc.refs → th.ref = some r
  claimed : ∀ pc r id, th.pc = .body pc → th.ref = some r → th.claimed = some id →
    id = (s.objs r).id
  caller : ∀ caller id, th.caller = some caller → caller.claimed = some id →
    id = (s.objs caller.old).id

variable {r : Ref} {n : Thread}

namespace Thread.Faithful

theorem mono {s' : Sys} (h : th.Faithful s)
    (hid : ∀ r ∈ th.refs, (s'.objs r).id = (s.objs r).id) : th.Faithful s' where
  key key r hop hpc href := by
    rw [h.key key r hop hpc href, hid r (by simp [refs, href])]
  target := h.target
  claimed pc r id hpc href hid' := by
    rw [h.claimed pc r id hpc href hid', hid r (by simp [refs, href])]
  caller caller id hcaller hid' := by
    rw [h.caller caller id hcaller hid', hid caller.old (by simp [refs, hcaller])]

theorem of_body {pc : BodyPc} (hpc : th.pc = .body pc)
    (hclaimed : ∀ r id, th.ref = some r → th.claimed = some id → id = (s.objs r).id)
    (hcaller : ∀ caller id, th.caller = some caller → caller.claimed = some id →
      id = (s.objs caller.old).id) : th.Faithful s where
  key _ _ _ hkey := by cases hpc.symm.trans hkey
  target r _ hr := by
    rw [hpc] at hr
    cases hr
  claimed _ r id _ := hclaimed r id
  caller := hcaller

theorem of_claimVM (hpc : th.pc.refs = [r]) (htarget : th.op = .restart → th.ref = some r)
    (hcaller : ∀ caller id, th.caller = some caller → caller.claimed = some id →
      id = (s.objs caller.old).id) :
    th.Faithful s where
  key _ _ _ hkey := by
    rw [hkey] at hpc
    cases hpc
  target r' hop hr' := by
    rw [hpc] at hr'
    exact List.mem_singleton.mp hr' ▸ htarget hop
  claimed _ _ _ hbody := by
    rw [hbody] at hpc
    cases hpc
  caller := hcaller

theorem «return» (h : th.Faithful s) {ok : Bool} (hn : th.return .firecracker ok = some n) :
    n.Faithful s := by
  rcases return_eq_some hn with ⟨caller, hcaller, rfl⟩ | ⟨-, -, -, rfl⟩
  · refine of_body rfl (fun r id href hid => ?_) nofun
    cases href
    exact h.caller caller id hcaller hid
  · exact of_body rfl nofun h.caller

theorem lookup (h : th.Faithful s) (hwf : th.Wf .firecracker) (hids : Ids s)
    (hrefs : ∀ r ∈ th.refs, r < s.nextRef)
    (hown : ∀ r ∈ th.ref, ∀ e ∈ s.vms.entries, (s.objs e.2).cfg.name = (s.objs r).id → e.2 = r)
    (hop : th.op = .restart) {key : Text} (hpc : th.pc = .resolve key) {pick : Nat}
    (hres : s.resolve key pick = some r) : th.ref = some r := by
  obtain ⟨old, hold⟩ := Option.isSome_iff_exists.mp (hwf.ref_of_restart hop)
  rw [h.key key old hop hpc hold] at hres
  rw [resolve_own hids (hrefs old (by simp [refs, hold])) (hown old hold) hres]
  exact hold

theorem turn (h : th.Faithful s) (hwf : th.Wf .firecracker) (haims : th.Aims s) (hids : Ids s)
    (hrefs : ∀ r ∈ th.refs, r < s.nextRef)
    (hown : th.op = .restart → th.pc.resolves = true →
      ∀ r ∈ th.ref, ∀ e ∈ s.vms.entries, (s.objs e.2).cfg.name = (s.objs r).id → e.2 = r)
    (hturn : Turn .firecracker s th c n) : n.Faithful s := by
  cases hturn with
  | stay r pc pc' href hpc =>
    exact of_body rfl (fun r id href' hid => h.claimed pc r id hpc href' hid) h.caller
  | lookup key r hpc hfc hres =>
    exact of_claimVM rfl
      (fun hop => h.lookup hwf hids hrefs (hown hop (by rw [hpc]; rfl)) hop hpc hres) h.caller
  | claim r hpc | recheck r hpc =>
    exact of_claimVM rfl (fun hop => h.target r hop (by simp [hpc, Pc.refs])) h.caller
  | enter r n hn hpc =>
    cases hn
    refine of_body rfl (fun r' id href hid => ?_) h.caller
    rcases hpc with ⟨key, -, hqemu, -⟩ | hpc
    · cases hqemu
    · have hclaimed : id = (s.objs r).id :=
        Option.some.inj (hid.symm.trans (haims.checked r (.inr hpc)))
      have hr : r' = r := by
        split at href
        · next hop =>
          exact Option.some.inj (href.symm.trans (h.target r hop (by simp [hpc, Pc.refs])))
        · exact (Option.some.inj href).symm
      rw [hr, hclaimed]
  | restart =>
    exact of_body rfl (by simp) (by simp)
  | wake r pc href hpc hpc' =>
    rcases hpc' with ⟨hqemu, -⟩ | ⟨-, rfl⟩
    · cases hqemu
    · refine ⟨fun key r' _ hkey href' => ?_, by simp [Pc.refs], by simp, h.caller⟩
      cases href.symm.trans href'
      cases hkey
      rfl
  | start r replacement href hpc =>
    refine ⟨by simp, by simp, by simp, fun caller id hcaller hid => ?_⟩
    cases hcaller
    exact h.claimed _ r id hpc href hid
  | «return» ok n hn => exact h.return hn

end Thread.Faithful

/-! ## What is claimed stays in the store -/

/-- An operation that works on a VM under its claim: that of the thread, or the
restart that waits for it. -/
inductive Thread.Owns (th : Thread) : Op → Ref → Prop where
  | self (pc : BodyPc) (r : Ref) (hpc : th.pc = .body pc) (href : th.ref = some r)
      (hclaimed : th.claimed.isSome) : th.Owns th.op r
  | caller (caller : Caller) (hcaller : th.caller = some caller)
      (hclaimed : caller.claimed.isSome) : th.Owns .restart caller.old

/-- A `Remove` or a restart that has taken its VM from the store. -/
def Thread.Deleted (th : Thread) : Prop :=
  th.pc = .body (.finish true) ∧ (th.op = .remove ∨ th.op = .restart)

def Thread.Keeps (th : Thread) (r : Ref) : Prop :=
  th.pc = .checkRestoring r ∨ (∃ op, th.Owns op r) ∧ ¬ th.Deleted

theorem mem_holdings_of_owns (h : th.Faithful s) {op : Op} (howns : th.Owns op r) :
    ((s.objs r).id, op) ∈ th.holdings := by
  cases howns with
  | self pc r hpc href hclaimed =>
    obtain ⟨id, hid⟩ := Option.isSome_iff_exists.mp hclaimed
    rw [← h.claimed pc r id hpc href hid]
    simp [holdings, hid]
  | caller caller hcaller hclaimed =>
    obtain ⟨id, hid⟩ := Option.isSome_iff_exists.mp hclaimed
    rw [← h.caller caller id hcaller hid]
    simp [holdings, hcaller, hid]

theorem mem_holdings_of_keeps (h : th.Faithful s) (haims : th.Aims s) (hkeeps : th.Keeps r) :
    ∃ op, ((s.objs r).id, op) ∈ th.holdings := by
  rcases hkeeps with hpc | ⟨⟨op, howns⟩, -⟩
  · exact ⟨th.op, by simp [holdings, haims.checked r (.inr hpc)]⟩
  · exact ⟨op, mem_holdings_of_owns h howns⟩

theorem not_deleted_of_pc (hpc : th.pc ≠ .body (.finish true)) : ¬ th.Deleted :=
  fun h => hpc h.1

theorem keeps_turn (h : th.Faithful s) (hwf : th.Wf .firecracker)
    (hturn : Turn .firecracker s th c n) (hkeeps : n.Keeps r) :
    th.Keeps r ∨ s.vms.lookup (s.objs r).id = some r := by
  -- Whom the thread waits on behalf of does not change inside its function.
  have hcaller : ∀ caller, th.caller = some caller → caller.claimed.isSome →
      th.Keeps caller.old := by
    intro caller hcaller hclaimed
    refine .inr ⟨⟨_, .caller caller hcaller hclaimed⟩, fun hdeleted => ?_⟩
    have hop := (hwf.caller caller hcaller).1
    rcases hdeleted.2 with hop' | hop' <;> cases hop.symm.trans hop'
  rcases hkeeps with hcheck | ⟨⟨op, howns⟩, -⟩
  · cases hturn with
    | recheck r₀ hpc hlookup =>
      cases hcheck
      exact .inr hlookup
    | enter r₀ n hn =>
      cases hn
      cases hcheck
    | wake r₀ pc href hpc hpc' => rcases hpc' with ⟨-, rfl⟩ | ⟨-, rfl⟩ <;> cases hcheck
    | «return» ok n hn =>
      rcases return_eq_some hn with ⟨caller, -, rfl⟩ | ⟨-, -, -, rfl⟩ <;> cases hcheck
    | _ => cases hcheck
  refine .inl ?_
  cases howns with
  | self pc₁ r hbody href hclaimed =>
    cases hturn with
    | stay r₀ pc pc' _ hpc ch hgoes =>
      refine .inr ⟨⟨_, .self pc r hpc href hclaimed⟩, not_deleted_of_pc fun hfin => ?_⟩
      cases hpc.symm.trans hfin
      cases hgoes.edge
    | enter r₀ n hn hpc =>
      cases hn
      rcases hpc with ⟨key, -, hqemu, -⟩ | hpc
      · cases hqemu
      have hr : r = r₀ := by
        split at href
        · next hop =>
          exact Option.some.inj (href.symm.trans (h.target r₀ hop (by simp [hpc, Pc.refs])))
        · exact (Option.some.inj href).symm
      exact .inl (hr ▸ hpc)
    | restart => cases hclaimed
    | wake r₀ pc _ hpc hpc' =>
      rcases hpc' with ⟨hqemu, -⟩ | ⟨-, rfl⟩
      · cases hqemu
      · cases hbody
    | «return» ok n hn =>
      rcases return_eq_some hn with ⟨caller, hc, rfl⟩ | ⟨-, -, -, rfl⟩
      · cases href
        exact hcaller caller hc hclaimed
      · cases hclaimed
    | _ => cases hbody
  | caller caller hc hclaimed =>
    cases hturn with
    | start r₀ replacement href hpc =>
      cases hc
      exact .inr ⟨⟨_, .self _ r₀ hpc href hclaimed⟩, not_deleted_of_pc (by simp [hpc])⟩
    | restart => cases hc
    | enter r₀ n hn =>
      cases hn
      exact hcaller caller hc hclaimed
    | «return» ok n hn =>
      rcases return_eq_some hn with ⟨_, -, rfl⟩ | ⟨hnone, -, -, rfl⟩
      · cases hc
      · cases hnone.symm.trans hc
    | _ => exact hcaller caller hc hclaimed

theorem lookup_apply {backend : Backend} (hr : r < s.nextRef)
    (h : s.vms.lookup (s.objs r).id = some r)
    (hne : (plan backend s th c).store ≠ .erase (s.objs r).id) :
    (s.apply t (plan backend s th c)).vms.lookup (s.objs r).id = some r := by
  rw [Sys.vms_apply]
  rcases store_plan backend s th c with hkeep | ⟨r', -, herase, -⟩ | ⟨r', -, -, hfresh, hcreate⟩
  · rw [hkeep]
    exact h
  · rw [herase] at hne ⊢
    have hid : (s.objs r).id ≠ (s.objs r').id := fun heq => hne (heq ▸ rfl)
    exact (AList.lookup_erase_ne hid).trans h
  · rw [hcreate]
    exact (AList.lookup_insert_ne (hfresh.2 r hr)).trans h

theorem deleted_of_erase (hwf : th.Wf .firecracker) {id : Text}
    (hstore : (plan .firecracker s th c).store = .erase id) :
    ∃ r pc, th.ref = some r ∧ th.pc = .body pc ∧ pc.claimed = true ∧ id = (s.objs r).id ∧
      th.op ≠ .start ∧ ∀ n, (plan .firecracker s th c).next = some n → n.Deleted := by
  rcases store_plan .firecracker s th c with hkeep | ⟨r, href, herase, hpc⟩ | ⟨r, -, -, -, hcreate⟩
  · cases hkeep.symm.trans hstore
  · cases StoreChange.erase.inj (herase.symm.trans hstore)
    rcases hpc with hpc | hpc
    · have hop : th.op = .remove := hwf.op_eq hpc rfl
      refine ⟨r, _, href, hpc, rfl, rfl, by simp [hop], fun n hn => ?_⟩
      simp only [plan, hpc, href, planBody] at hn herase
      split at hn
      · cases hn
        exact ⟨rfl, .inl hop⟩
      · next hmem =>
        rw [if_neg hmem] at herase
        cases herase
    · have hop : th.op = .restart := hwf.op_eq hpc rfl
      refine ⟨r, _, href, hpc, rfl, rfl, by simp [hop], fun n hn => ?_⟩
      simp only [plan, hpc, href, planBody] at hn
      cases hn
      exact ⟨rfl, .inr hop⟩
  · cases hcreate.symm.trans hstore

/-! ## The invariant -/

structure Owned (s : Sys) : Prop where
  faithful : ∀ t th, s.threads t = some th → th.Faithful s
  stored : ∀ t th r, s.threads t = some th → th.Keeps r → s.vms.lookup (s.objs r).id = some r

theorem owned_init : Owned Sys.init where
  faithful := nofun
  stored := nofun

namespace Owned

theorem mem_refs_of_keeps (h : th.Keeps r) : r ∈ th.refs := by
  rcases h with hpc | ⟨⟨op, howns⟩, -⟩
  · simp [refs, Pc.refs, hpc]
  · cases howns with
    | self pc r hpc href => simp [refs, href]
    | caller caller hcaller => simp [refs, hcaller]

theorem advance (h : Owned s) (hbase : Base .firecracker s) (hth : s.threads t = some th)
    (hown : LooksUpOwn s (.advance t c)) : Owned (s.apply t (plan .firecracker s th c)) := by
  have hwf := hbase.wf t th hth
  have hbase' := hbase.advance hth c
  refine ⟨fun t' th' hth' => ?_, fun t' th' r hth' hkeeps => ?_⟩
  · refine Thread.Faithful.mono ?_ fun r hr => (id_apply (hbase.refs_advance hth hth' hr)).1
    rcases Sys.threads_apply hth' with ⟨-, hn⟩ | ⟨-, hn⟩ | ⟨-, hold⟩
    · exact (h.faithful t th hth).turn hwf (hbase.aims t th hth) hbase.ids (hbase.refs t th hth)
        (hown th hth) (turn_plan hn)
    · obtain ⟨r, ok, -, -, rfl⟩ := spawn_plan hn
      exact .of_body rfl nofun nofun
    · exact h.faithful t' th' hold
  · have hlt := hbase.refs_advance hth hth' (mem_refs_of_keeps hkeeps)
    rw [(id_apply hlt).1]
    rcases Sys.threads_apply hth' with ⟨-, hn⟩ | ⟨-, hn⟩ | ⟨hne, hold⟩
    · refine lookup_apply hlt ?_ fun herase => ?_
      · rcases keeps_turn (h.faithful t th hth) hwf (turn_plan hn) hkeeps with hkept | hlookup
        · exact h.stored t th r hth hkept
        · exact hlookup
      · obtain ⟨-, -, -, -, -, -, -, hdeleted⟩ := deleted_of_erase hwf herase
        rcases hkeeps with hpc | ⟨-, hnot⟩
        · cases hpc.symm.trans (hdeleted th' hn).1
        · exact hnot (hdeleted th' hn)
    · obtain ⟨r', ok, -, -, rfl⟩ := spawn_plan hn
      rcases hkeeps with hpc | ⟨⟨op, howns⟩, -⟩
      · cases hpc
      · cases howns with
        | self pc r hpc href hclaimed => cases hclaimed
        | caller caller hcaller => cases hcaller
    · refine lookup_apply hlt (h.stored t' th' r hold hkeeps) fun herase => ?_
      -- The other thread has the claim on the VM.
      obtain ⟨r₀, pc, href, hpc, hpcClaimed, hid, -, -⟩ := deleted_of_erase hwf herase
      have hfits := hwf.fits
      rw [hpc] at hfits
      have howns : th.Owns th.op r₀ := .self pc r₀ hpc href (hfits.2.2.mpr ⟨rfl, hpcClaimed⟩)
      obtain ⟨op, hmem⟩ := mem_holdings_of_keeps (h.faithful t' th' hold) (hbase.aims t' th' hold)
        hkeeps
      exact hbase.exclusive.one t' t th' th hold hth hne _ hmem _
        (mem_holdings_of_owns (h.faithful t th hth) howns) hid

theorem step (h : Owned s) (hbase : Base .firecracker s) {a : Action} (hown : LooksUpOwn s a) :
    Owned (step .firecracker s a) := by
  refine step_induction h (fun cfg id hfresh => ?_) (fun op key hop => ?_) fun t c th ha hth => ?_
  · refine ⟨fun t th hth => ?_, fun t th r hth hkeeps => ?_⟩
    · exact (h.faithful t th hth).mono fun r hr => by
        rw [Sys.objs_addVM (hbase.refs t th hth r hr)]
    · have hlt := hbase.refs t th hth r (mem_refs_of_keeps hkeeps)
      rw [Sys.objs_addVM hlt]
      exact (AList.lookup_insert_ne (hfresh.2 r hlt)).trans (h.stored t th r hth hkeeps)
  · refine ⟨fun t th hth => ?_, fun t th r hth hkeeps => ?_⟩
    · rcases Sys.threads_addThread hth with ⟨-, rfl⟩ | hold
      · refine ⟨fun _ _ hrestart => ?_, fun _ hrestart => ?_, nofun,
          nofun⟩
        all_goals
          cases hrestart
          cases hop
      · exact (h.faithful t th hold).mono fun _ _ => rfl
    · rcases Sys.threads_addThread hth with ⟨-, rfl⟩ | hold
      · cases mem_refs_of_keeps hkeeps
      · exact h.stored t th r hold hkeeps
  · subst ha
    exact h.advance hbase hth hown

end Owned

end Jerboa.Vm.Lifecycle
