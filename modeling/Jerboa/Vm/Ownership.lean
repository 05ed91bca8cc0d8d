import Jerboa.Vm.Threads

/-!
# Who owns a VM

The claims of Firecracker's lifecycle operations, over every interleaving: a
claim is held by one thread, and given back by the thread that holds it.  And
the ids of VMs, by which claims go: no two VMs have the same, as the ids are
assumed to be fresh, and the store files each VM under its own.
-/

namespace Jerboa.Vm.Lifecycle

open List Function Net.Address Lib.Run ClaimChange
open Jerboa.Api (State validTransitions)

variable {backend : Backend} {s : Sys} {t : Nat} {th : Thread} {c : Choice}

/-! ## Claims -/

/-- The claims a thread holds: its own, and the one of the restart that waits
for it. -/
def Thread.holdings (th : Thread) : List (Text × Op) :=
  th.claimed.toList.map (·, th.op) ++ (th.caller.bind Caller.claimed).toList.map (·, .restart)

variable {n : Thread} {ok : Bool}

theorem holdings_return (hn : th.return backend ok = some n) :
    n.holdings = (th.caller.bind Caller.claimed).toList.map (·, .restart) := by
  rcases return_eq_some hn with ⟨caller, hcaller, rfl⟩ | ⟨hcaller, -, -, rfl⟩ <;>
    simp [Thread.holdings, hcaller]

/-- What a step does to the claims.  It leaves them alone, or takes a free one,
or gives back the thread's own. -/
inductive ClaimStep (s : Sys) (th : Thread) (e : Effect) : Prop where
  | keep (hclaims : e.claims = .keep)
      (hnext : ∀ n, e.next = some n → n.holdings = th.holdings ∨ n.holdings = [])
  | claim (r : Ref) (hpc : th.pc = .claim r) (hfree : s.claims (s.objs r).id = none)
      (hclaims : e.claims = .claim (s.objs r).id th.op)
      (hnext : ∀ n, e.next = some n → n.holdings = ((s.objs r).id, th.op) :: th.holdings)
  | release (id : Text) (rest : List (Text × Op)) (hclaimed : th.claimed = some id)
      (hth : th.holdings = (id, th.op) :: rest) (hclaims : e.claims = .release id th.op)
      (hnext : ∀ n, e.next = some n → n.holdings = rest)

theorem claimStep_return {e : Effect} (hnext : e.next = th.return backend ok)
    (hclaims : e.claims = th.release) : ClaimStep s th e := by
  cases hclaimed : th.claimed with
  | none =>
    refine .keep (by rw [hclaims, Thread.release, hclaimed]) fun n hn => .inl ?_
    rw [holdings_return (hnext.symm.trans hn)]
    simp [Thread.holdings, hclaimed]
  | some id =>
    refine .release id ((th.caller.bind Caller.claimed).toList.map (·, .restart)) hclaimed
      (by simp [Thread.holdings, hclaimed]) (by rw [hclaims, Thread.release, hclaimed])
      fun n hn => holdings_return (hnext.symm.trans hn)

theorem claimStep_plan (h : th.Wf backend) : ClaimStep s th (plan backend s th c) := by
  have hfits := h.fits
  unfold plan
  cases hpc : th.pc with
  | resolve =>
    rw [hpc] at hfits
    dsimp only
    split
    · exact claimStep_return rfl (by rw [Thread.release, hfits.1])
    · cases backend <;>
        exact .keep rfl fun n hn => .inl (by cases Option.some.inj hn; rfl)
  | claim r =>
    rw [hpc] at hfits
    dsimp only
    split
    · exact claimStep_return rfl (by rw [Thread.release, hfits.1])
    · next hfree =>
      refine .claim r hpc hfree rfl fun n hn => ?_
      cases Option.some.inj hn
      simp [Thread.holdings, hfits.1]
  | recheck =>
    dsimp only
    split
    · exact .keep rfl fun n hn => .inl (by cases Option.some.inj hn; rfl)
    · exact claimStep_return rfl rfl
  | checkRestoring =>
    dsimp only
    split
    · exact claimStep_return rfl rfl
    · exact .keep rfl fun n hn => .inl (by cases Option.some.inj hn; rfl)
  | body pc =>
    cases href : th.ref with
    | none => exact .keep rfl fun n hn => by cases hn
    | some r =>
      dsimp only
      rcases eq_or_ne (pc.edges s.nextRef) [] with hnil | hne
      · cases pc with
        | decide =>
          simp only [planBody]
          split
          · exact .keep rfl fun n hn => .inr (by cases Option.some.inj hn; rfl)
          · exact .keep rfl fun n hn => by cases hn
        | sleep =>
          cases backend <;>
            exact .keep rfl fun n hn => .inl (by cases Option.some.inj hn; rfl)
        | setCount =>
          -- The claim of the restart waits for the `Start` with it.
          refine .keep rfl fun n hn => .inl ?_
          cases Option.some.inj hn
          have hop : th.op = .restart := h.op_eq hpc rfl
          have hcaller : th.caller = none := h.caller_eq_none (by simp [hop])
          simp [Thread.holdings, hcaller, hop]
        | clearPending => exact .keep rfl fun n hn => by cases hn
        | finish => exact claimStep_return rfl rfl
        | _ => cases hnil
      · obtain ⟨ch, pc', hgoes⟩ := goes_planBody backend s th c r hne
        refine .keep hgoes.claims fun n hn => .inl ?_
        cases Option.some.inj (hgoes.next.symm.trans hn)
        rfl

structure Exclusive (s : Sys) : Prop where
  held : ∀ t th, s.threads t = some th → ∀ p ∈ th.holdings, s.claims p.1 = some p.2
  one : ∀ t t' th th', s.threads t = some th → s.threads t' = some th' → t ≠ t' →
    ∀ p ∈ th.holdings, ∀ p' ∈ th'.holdings, p.1 ≠ p'.1
  nodup : ∀ t th, s.threads t = some th → (th.holdings.map Prod.fst).Nodup

variable {th' : Thread} {id : Text} {t' : Nat}

namespace Exclusive

variable {e : Effect}

variable {p : Text × Op}

theorem old_or_free (hstep : ClaimStep s th e) (hn : e.next = some n) (hp : p ∈ n.holdings) :
    p ∈ th.holdings ∨ s.claims p.1 = none := by
  cases hstep with
  | keep hclaims hnext =>
    rcases hnext n hn with heq | heq
    · exact .inl (heq ▸ hp)
    · cases heq ▸ hp
  | claim r hpc hfree hclaims hnext =>
    rw [hnext n hn] at hp
    rcases mem_cons.mp hp with rfl | hp
    · exact .inr hfree
    · exact .inl hp
  | release id rest _ hth hclaims hnext =>
    rw [hnext n hn] at hp
    exact .inl (hth ▸ mem_cons_of_mem _ hp)

theorem claims_eq (hstep : ClaimStep s th e) (hheld : s.claims p.1 = some p.2)
    (hother : ∀ id, th.claimed = some id → e.claims = .release id th.op → p ≠ (id, th.op)) :
    e.claims.apply s.claims p.1 = some p.2 := by
  cases hstep with
  | keep hclaims =>
    rw [hclaims]
    exact hheld
  | claim r hpc hfree hclaims =>
    have hid : p.1 ≠ (s.objs r).id := by
      intro heq
      rw [heq, hfree] at hheld
      cases hheld
    rw [hclaims, apply, update_of_ne hid]
    exact hheld
  | release id rest hclaimed _ hclaims =>
    rw [hclaims, apply]
    split
    · next hown =>
      have hid : p.1 ≠ id := by
        rintro rfl
        exact hother _ hclaimed hclaims
          (Prod.ext rfl (Option.some.inj (hheld.symm.trans hown)))
      rw [update_of_ne hid]
      exact hheld
    · exact hheld

theorem claims_other (h : Exclusive s) (hth : s.threads t = some th) (hstep : ClaimStep s th e)
    (hth' : s.threads t' = some th') (hne : t' ≠ t) (hp : p ∈ th'.holdings) :
    e.claims.apply s.claims p.1 = some p.2 := by
  refine claims_eq hstep (h.held t' th' hth' p hp) fun id hclaimed _ heq => ?_
  exact h.one t' t th' th hth' hth hne p hp (id, th.op) (by simp [Thread.holdings, hclaimed])
    (by rw [heq])

theorem claims_next (h : Exclusive s) (hth : s.threads t = some th) (hstep : ClaimStep s th e)
    (hn : e.next = some n) (hp : p ∈ n.holdings) :
    e.claims.apply s.claims p.1 = some p.2 := by
  have hold := fun hp => claims_eq hstep (h.held t th hth p hp)
  cases hstep with
  | keep hclaims hnext =>
    rcases hnext n hn with heq | heq
    · exact hold (heq ▸ hp) fun id _ hrelease => by cases hclaims.symm.trans hrelease
    · cases heq ▸ hp
  | claim r hpc hfree hclaims hnext =>
    rw [hnext n hn] at hp
    rcases mem_cons.mp hp with rfl | hp
    · rw [hclaims, apply, update_self]
    · exact hold hp fun id _ hrelease => by cases hclaims.symm.trans hrelease
  | release id rest hclaimed hth' hclaims hnext =>
    rw [hnext n hn] at hp
    have hnodup := h.nodup t th hth
    rw [hth', map_cons, nodup_cons] at hnodup
    refine hold (hth' ▸ mem_cons_of_mem _ hp) fun id' hclaimed' _ heq => hnodup.1 ?_
    cases hclaimed.symm.trans hclaimed'
    exact mem_map.mpr ⟨p, hp, by rw [heq]⟩

theorem own_of_freed (hstep : ClaimStep s th e) {op : Op} (hbefore : s.claims id = some op)
    (hafter : e.claims.apply s.claims id ≠ some op) :
    th.op = op ∧ th.claimed = some id := by
  by_contra hnot
  refine hafter (claims_eq (p := (id, op)) hstep hbefore fun id' hclaimed _ heq => hnot ?_)
  cases heq
  exact ⟨rfl, hclaimed⟩

theorem nodup_next (h : Exclusive s) (hth : s.threads t = some th) (hstep : ClaimStep s th e)
    (hn : e.next = some n) : (n.holdings.map Prod.fst).Nodup := by
  have hnodup := h.nodup t th hth
  cases hstep with
  | keep hclaims hnext =>
    rcases hnext n hn with heq | heq
    · exact heq ▸ hnodup
    · rw [heq]
      exact nodup_nil
  | claim r hpc hfree hclaims hnext =>
    rw [hnext n hn, map_cons, nodup_cons]
    refine ⟨fun hmem => ?_, hnodup⟩
    obtain ⟨p, hp, heq⟩ := mem_map.mp hmem
    have hheld := h.held t th hth p hp
    rw [heq, hfree] at hheld
    cases hheld
  | release id rest _ hth' hclaims hnext =>
    rw [hth', map_cons, nodup_cons] at hnodup
    rw [hnext n hn]
    exact hnodup.2

theorem apply (h : Exclusive s) (hth : s.threads t = some th) (hstep : ClaimStep s th e)
    (hspawn : ∀ n, e.spawn = some n → n.holdings = []) : Exclusive (s.apply t e) := by
  -- What the thread goes on with is apart from what another holds.
  have hapart : ∀ n, e.next = some n → ∀ t' th', t' ≠ t → s.threads t' = some th' →
      ∀ p ∈ n.holdings, ∀ p' ∈ th'.holdings, p.1 ≠ p'.1 := by
    intro n hn t' th' hne hth' p hp p' hp'
    rcases old_or_free hstep hn hp with hold | hfree
    · exact h.one t t' th th' hth hth' hne.symm p hold p' hp'
    · intro heq
      cases (heq ▸ hfree).symm.trans (h.held t' th' hth' p' hp')
  constructor
  · intro t' th' hth' p hp
    rw [Sys.claims_apply]
    rcases Sys.threads_apply hth' with ⟨-, hn⟩ | ⟨-, hn⟩ | ⟨hne, hold⟩
    · exact h.claims_next hth hstep hn hp
    · cases hspawn th' hn ▸ hp
    · exact h.claims_other hth hstep hold hne hp
  · intro t₁ t₂ th₁ th₂ hth₁ hth₂ hne
    refine Sys.pairwise_apply (R := fun th th' =>
      ∀ p ∈ th.holdings, ∀ p' ∈ th'.holdings, p.1 ≠ p'.1)
      (fun _ _ hR p hp p' hp' => (hR p' hp' p hp).symm) h.one ?_ ?_ hth₁ hth₂ hne
    · rintro n (hn | hn) t' th' hne hth'
      · exact hapart n hn t' th' hne hth'
      · exact fun p hp => by cases hspawn n hn ▸ hp
    · exact fun n m _ hm p _ p' hp' => by cases hspawn m hm ▸ hp'
  · intro t' th' hth'
    rcases Sys.threads_apply hth' with ⟨-, hn⟩ | ⟨-, hn⟩ | ⟨-, hold⟩
    · exact h.nodup_next hth hstep hn
    · rw [hspawn th' hn]
      exact nodup_nil
    · exact h.nodup t' th' hold

end Exclusive

/-! ## Ids -/

/-- Ids are of one length, belong to one VM each, and are what the store files a
VM under. -/
structure Ids (s : Sys) : Prop where
  length : ∀ r < s.nextRef, (s.objs r).id.length = 12
  inj : ∀ r < s.nextRef, ∀ r' < s.nextRef, (s.objs r).id = (s.objs r').id → r = r'
  vms : ∀ id r, s.vms.lookup id = some r → r < s.nextRef ∧ (s.objs r).id = id

/-- What a step does to the VMs: it makes none, and the store has at most those
it had, or it makes one of a fresh id. -/
inductive VmsStep (s s' : Sys) : Prop where
  | keep (hnext : s'.nextRef = s.nextRef)
      (hvms : ∀ id r, s'.vms.lookup id = some r → s.vms.lookup id = some r)
  | create (id : Text) (hfresh : s.FreshId id) (hnext : s'.nextRef = s.nextRef + 1)
      (hid : (s'.objs s.nextRef).id = id) (hvms : s'.vms = s.vms.insert id s.nextRef)

variable {s' : Sys}

theorem VmsStep.nextRef_le (h : VmsStep s s') : s.nextRef ≤ s'.nextRef := by
  cases h with
  | keep hnext => exact hnext.ge
  | create id hfresh hnext => exact hnext ▸ Nat.le_succ s.nextRef

theorem Ids.step (h : Ids s) (hid : ∀ r < s.nextRef, (s'.objs r).id = (s.objs r).id)
    (hstep : VmsStep s s') : Ids s' := by
  cases hstep with
  | keep hnext hvms =>
    refine ⟨fun r hr => ?_, fun r hr r' hr' heq => ?_, fun id r hlookup => ?_⟩
    · rw [hid r (hnext ▸ hr)]
      exact h.length r (hnext ▸ hr)
    · rw [hid r (hnext ▸ hr), hid r' (hnext ▸ hr')] at heq
      exact h.inj r (hnext ▸ hr) r' (hnext ▸ hr') heq
    · obtain ⟨hr, hrid⟩ := h.vms id r (hvms id r hlookup)
      exact ⟨hnext ▸ hr, (hid r hr).trans hrid⟩
  | create id hfresh hnext hnew hvms =>
    have hcases : ∀ r < s'.nextRef, r < s.nextRef ∨ r = s.nextRef :=
      fun r hr => Nat.lt_succ_iff_lt_or_eq.mp (lt_of_lt_of_eq hr hnext)
    refine ⟨fun r hr => ?_, fun r hr r' hr' heq => ?_, fun id' r hlookup => ?_⟩
    · rcases hcases r hr with hlt | rfl
      · rw [hid r hlt]
        exact h.length r hlt
      · rw [hnew]
        exact hfresh.1
    · rcases hcases r hr with hlt | rfl <;> rcases hcases r' hr' with hlt' | rfl
      · rw [hid r hlt, hid r' hlt'] at heq
        exact h.inj r hlt r' hlt' heq
      · rw [hid r hlt, hnew] at heq
        exact absurd heq (hfresh.2 r hlt)
      · rw [hid r' hlt', hnew] at heq
        exact absurd heq.symm (hfresh.2 r' hlt')
      · rfl
    · rw [hvms] at hlookup
      rcases eq_or_ne id' id with rfl | hne
      · rw [AList.lookup_insert] at hlookup
        cases hlookup
        exact ⟨hnext ▸ Nat.lt_succ_self s.nextRef, hnew⟩
      · rw [AList.lookup_insert_ne hne] at hlookup
        obtain ⟨hr, hrid⟩ := h.vms id' r hlookup
        exact ⟨hnext ▸ Nat.lt_succ_of_lt hr, (hid r hr).trans hrid⟩

theorem vmsStep_apply : VmsStep s (s.apply t (plan backend s th c)) := by
  rcases store_plan backend s th c with
    hkeep | ⟨r, -, herase, -⟩ | ⟨r, -, -, hfresh, hcreate⟩
  · exact .keep (by rw [Sys.nextRef_apply, hkeep]) fun id r h => by
      rwa [Sys.vms_apply, hkeep] at h
  · refine .keep (by rw [Sys.nextRef_apply, herase]) fun id r' h => ?_
    rw [Sys.vms_apply, herase] at h
    rcases eq_or_ne id (s.objs r).id with rfl | hne
    · cases (AList.lookup_erase _ s.vms).symm.trans h
    · exact (AList.lookup_erase_ne hne).symm.trans h
  · exact .create c.id hfresh (by rw [Sys.nextRef_apply, hcreate])
      (by rw [Sys.objs_apply_create hcreate]; rfl) (by rw [Sys.vms_apply, hcreate]; rfl)

variable {r : Ref}

theorem old_or_new (hr : r < (s.apply t (plan backend s th c)).nextRef) :
    r < s.nextRef ∨ ∃ id cfg, (s.apply t (plan backend s th c)).objs r = Obj.new id cfg := by
  rw [Sys.nextRef_apply] at hr
  rcases store_plan backend s th c with hkeep | ⟨r', -, herase, -⟩ | ⟨r', -, -, -, hcreate⟩
  · rw [hkeep] at hr
    exact .inl hr
  · rw [herase] at hr
    exact .inl hr
  · rw [hcreate] at hr
    rcases Nat.lt_succ_iff_lt_or_eq.mp hr with hlt | rfl
    · exact .inl hlt
    · exact .inr ⟨_, _, Sys.objs_apply_create hcreate⟩

theorem vmsStep_addVM {cfg : Config} (hfresh : s.FreshId id) :
    VmsStep s (s.addVM (Obj.new id cfg)) :=
  .create id hfresh rfl (by simp [Sys.addVM, Obj.new]) rfl

/-- A call that has a claim has it on the VM it looked up and works on.  A
restart has looked up its VM by the id, and works on the VM it started with. -/
structure Thread.Aims (s : Sys) (th : Thread) : Prop where
  checked : ∀ r, th.pc = .recheck r ∨ th.pc = .checkRestoring r → th.claimed = some (s.objs r).id
  claimed : ∀ pc r id, th.op ≠ .restart → th.pc = .body pc → th.ref = some r →
    th.claimed = some id → id = (s.objs r).id

namespace Thread.Aims

theorem of_unclaimed (h : th.claimed = none) (hpc : th.pc.refs = []) : th.Aims s where
  checked r hr := by
    rcases hr with hr | hr <;> simp [hr, Pc.refs] at hpc
  claimed pc r id _ _ _ hid := by cases h.symm.trans hid

theorem of_restart (h : th.op = .restart) (hpc : th.pc.refs = []) : th.Aims s where
  checked r hr := by
    rcases hr with hr | hr <;> simp [hr, Pc.refs] at hpc
  claimed pc r id hop := absurd h hop

theorem mono (h : th.Aims s) (hid : ∀ r ∈ th.refs, (s'.objs r).id = (s.objs r).id) :
    th.Aims s' where
  checked r hr := by
    rw [h.checked r hr, hid r]
    rcases hr with hr | hr <;> simp [Thread.refs, Pc.refs, hr]
  claimed pc r id hop hpc href hclaimed := by
    rw [h.claimed pc r id hop hpc href hclaimed, hid r]
    simp [Thread.refs, href]

theorem «return» (hn : th.return backend ok = some n) : n.Aims s := by
  rcases return_eq_some hn with ⟨caller, -, rfl⟩ | ⟨-, hop, -, rfl⟩
  · exact of_restart rfl rfl
  · exact of_restart hop rfl

theorem turn (h : th.Aims s) (hwf : th.Wf backend) (hturn : Turn backend s th c n) :
    n.Aims s := by
  cases hturn with
  | stay r pc pc' href hpc =>
    refine ⟨fun r' hr' => by simp at hr', fun pc₁ r' id hop _ href' hid => ?_⟩
    exact h.claimed pc r' id hop hpc href' hid
  | lookup =>
    exact ⟨fun r' hr' => by simp at hr', nofun⟩
  | claim r =>
    refine ⟨fun r' hr' => ?_, nofun⟩
    cases show r = r' by simpa using hr'
    rfl
  | recheck r hpc =>
    refine ⟨fun r' hr' => ?_, nofun⟩
    cases show r = r' by simpa using hr'
    exact h.checked r (.inl hpc)
  | enter r n hn hpc =>
    cases hn
    refine ⟨fun r' hr' => by simp at hr', fun pc₁ r' id hop _ href hid => ?_⟩
    simp only [if_neg hop, Option.some.injEq] at href
    subst href
    rcases hpc with ⟨key, hpc, -, -⟩ | hpc
    · have hfits := hwf.fits
      rw [hpc] at hfits
      cases hfits.1.symm.trans hid
    · exact Option.some.inj (hid.symm.trans (h.checked r (.inr hpc)))
  | restart => exact of_restart rfl rfl
  | wake r pc href hpc hpc' =>
    refine of_restart (hwf.op_eq hpc rfl) ?_
    rcases hpc' with ⟨-, rfl⟩ | ⟨-, rfl⟩ <;> rfl
  | start => exact of_unclaimed rfl rfl
  | «return» ok n hn => exact Aims.return hn

end Thread.Aims

/-! ## The invariant -/

structure Base (backend : Backend) (s : Sys) : Prop where
  wf : ∀ t th, s.threads t = some th → th.Wf backend
  aims : ∀ t th, s.threads t = some th → th.Aims s
  ids : Ids s
  refs : ∀ t th, s.threads t = some th → ∀ r ∈ th.refs, r < s.nextRef
  fresh : ∀ t, s.nextThread ≤ t → s.threads t = none
  exclusive : Exclusive s

theorem base_init : Base backend Sys.init where
  wf _ _ h := by cases h
  aims _ _ h := by cases h
  ids := ⟨fun _ h => absurd h (Nat.not_lt_zero _), fun _ h => absurd h (Nat.not_lt_zero _),
    fun _ _ h => by cases h⟩
  refs _ _ h := by cases h
  fresh _ _ := rfl
  exclusive :=
    { held := fun _ _ h => by cases h
      one := fun _ _ _ _ h => by cases h
      nodup := fun _ _ h => by cases h }

namespace Base

section

variable (h : Base backend s)
include h

theorem refs_advance (hth : s.threads t = some th)
    (hth' : (s.apply t (plan backend s th c)).threads t' = some th') (hr : r ∈ th'.refs) :
    r < s.nextRef := by
  rcases Sys.threads_apply hth' with ⟨-, hn⟩ | ⟨-, hn⟩ | ⟨-, hold⟩
  · rcases refs_turn (turn_plan hn) hr with hr | ⟨id, hid⟩
    · exact h.refs t th hth r hr
    · exact (h.ids.vms id r hid).1
  · obtain ⟨r', ok, href, -, rfl⟩ := spawn_plan hn
    simp [monitorThread, Thread.refs, Pc.refs] at hr
    exact h.refs t th hth r (by simp [Thread.refs, href, hr])
  · exact h.refs t' th' hold r hr

theorem advance (hth : s.threads t = some th) (c : Choice) :
    Base backend (s.apply t (plan backend s th c)) := by
  have hvms : VmsStep s (s.apply t (plan backend s th c)) := vmsStep_apply
  refine ⟨fun t' th' hth' => ?_, fun t' th' hth' => ?_,
    h.ids.step (fun r hr => (id_apply hr).1) hvms, fun t' th' hth' r hr => ?_,
    fun t' ht' => ?_, ?_⟩
  · rcases Sys.threads_apply hth' with ⟨-, hn⟩ | ⟨-, hn⟩ | ⟨-, hold⟩
    · exact (h.wf t th hth).turn (turn_plan hn)
    · obtain ⟨r, ok, -, -, rfl⟩ := spawn_plan hn
      exact wf_monitorThread r
    · exact h.wf t' th' hold
  · refine Thread.Aims.mono ?_ fun r hr => (id_apply (h.refs_advance hth hth' hr)).1
    rcases Sys.threads_apply hth' with ⟨-, hn⟩ | ⟨-, hn⟩ | ⟨-, hold⟩
    · exact (h.aims t th hth).turn (h.wf t th hth) (turn_plan hn)
    · obtain ⟨r, ok, -, -, rfl⟩ := spawn_plan hn
      exact .of_unclaimed rfl rfl
    · exact h.aims t' th' hold
  · exact lt_of_lt_of_le (h.refs_advance hth hth' hr) hvms.nextRef_le
  · rw [Sys.nextThread_apply] at ht'
    have hne : t' ≠ t := by
      rintro rfl
      cases hth.symm.trans (h.fresh t' (by omega))
    cases hnew : (s.apply t (plan backend s th c)).threads t' with
    | none => rfl
    | some =>
      rcases Sys.threads_apply hnew with ⟨heq, -⟩ | ⟨rfl, hn⟩ | ⟨-, hold⟩
      · exact absurd heq hne
      · rw [hn] at ht'
        exact absurd ht' (by simp)
      · cases (h.fresh t' (by omega)).symm.trans hold
  · refine h.exclusive.apply hth (claimStep_plan (h.wf t th hth)) fun n hn => ?_
    obtain ⟨r, ok, -, -, rfl⟩ := spawn_plan hn
    rfl

theorem addVM {cfg : Config} (hfresh : s.FreshId id) :
    Base backend (s.addVM (Obj.new id cfg)) where
  wf := h.wf
  aims t th hth := (h.aims t th hth).mono fun r hr => by
    rw [Sys.objs_addVM (h.refs t th hth r hr)]
  ids := h.ids.step (fun r hr => by rw [Sys.objs_addVM hr]) (vmsStep_addVM hfresh)
  refs t th hth r hr := Nat.lt_succ_of_lt (h.refs t th hth r hr)
  fresh := h.fresh
  exclusive := ⟨h.exclusive.held, h.exclusive.one, h.exclusive.nodup⟩

theorem addThread {op : Op} (hop : op.offered backend = true) (key : Text) :
    Base backend (s.addThread (callThread op key)) := by
  have hthreads := fun t th (hth : (s.addThread (callThread op key)).threads t = some th) =>
    Sys.threads_addThread hth
  refine ⟨fun t th hth => ?_, fun t th hth => ?_, ⟨h.ids.length, h.ids.inj, h.ids.vms⟩,
    fun t th hth r hr => ?_,
    fun t ht => ?_, fun t th hth p hp => ?_, fun t t' th th' hth hth' hne p hp p' hp' => ?_,
    fun t th hth => ?_⟩
  · rcases hthreads t th hth with ⟨-, rfl⟩ | hold
    · refine ⟨nofun, fun hsnap => ?_, rfl, ?_, ?_⟩
      · rcases hsnap with rfl | rfl <;> simpa [Op.offered] using hop
      · rintro rfl
        cases hop
      · constructor
        · intro hclaimed
          cases hclaimed
        · rintro rfl
          cases hop
    · exact h.wf t th hold
  · rcases hthreads t th hth with ⟨-, rfl⟩ | hold
    · exact .of_unclaimed rfl rfl
    · exact (h.aims t th hold).mono fun _ _ => rfl
  · rcases hthreads t th hth with ⟨-, rfl⟩ | hold
    · cases hr
    · exact h.refs t th hold r hr
  · have hlt : s.nextThread < t := ht
    simp only [Sys.addThread, update_of_ne hlt.ne']
    exact h.fresh t hlt.le
  · rcases hthreads t th hth with ⟨-, rfl⟩ | hold
    · cases hp
    · exact h.exclusive.held t th hold p hp
  · rcases hthreads t th hth with ⟨-, rfl⟩ | hold
    · cases hp
    · rcases hthreads t' th' hth' with ⟨-, rfl⟩ | hold'
      · cases hp'
      · exact h.exclusive.one t t' th th' hold hold' hne p hp p' hp'
  · rcases hthreads t th hth with ⟨-, rfl⟩ | hold
    · exact nodup_nil
    · exact h.exclusive.nodup t th hold

theorem step (a : Action) : Base backend (step backend s a) :=
  step_induction h (fun _ _ => h.addVM) (fun _ key hop => h.addThread hop key)
    fun _ c _ _ hth => h.advance hth c

end

theorem lt_nextThread (h : Base backend s) (hth : s.threads t = some th) : t < s.nextThread := by
  by_contra hge
  cases (h.fresh t (Nat.not_lt.mp hge)).symm.trans hth

theorem mem_holdings (h : Base .firecracker s) (hth : s.threads t = some th)
    (hop : th.op ≠ .restart) {pc : BodyPc} (hpc : th.pc = .body pc) (hclaimed : pc.claimed = true)
    (href : th.ref = some r) : ((s.objs r).id, th.op) ∈ th.holdings := by
  have hfits := (h.wf t th hth).fits
  rw [hpc] at hfits
  obtain ⟨id, hid⟩ := Option.isSome_iff_exists.mp (hfits.2.2.mpr ⟨rfl, hclaimed⟩)
  rw [← (h.aims t th hth).claimed pc r id hop hpc href hid]
  simp [Thread.holdings, hid]

theorem one_call (h : Base .firecracker s) (hth : s.threads t = some th)
    (hth' : s.threads t' = some th') (hop : th.op ≠ .restart) (hop' : th'.op ≠ .restart)
    {pc pc' : BodyPc} (hpc : th.pc = .body pc) (hpc' : th'.pc = .body pc')
    (hclaimed : pc.claimed = true) (hclaimed' : pc'.claimed = true) (href : th.ref = some r)
    (href' : th'.ref = some r) : t = t' := by
  by_contra hne
  exact h.exclusive.one t t' th th' hth hth' hne _ (h.mem_holdings hth hop hpc hclaimed href) _
    (h.mem_holdings hth' hop' hpc' hclaimed' href') rfl

end Base

/-- In every run what a thread holds is claimed, two threads hold no claim on one VM, and
the store files each VM under its own id; so two calls that work on one VM under a claim
are one. -/
theorem claims_exclusive (acts : List Action) :
    let s := run (step .firecracker) Sys.init acts
    Exclusive s ∧ (∀ id r, s.vms.lookup id = some r → (s.objs r).id = id) ∧
      ∀ t t' th th' pc pc' r,
        s.threads t = some th → s.threads t' = some th' → th.op ≠ .restart → th'.op ≠ .restart →
        th.pc = .body pc → th'.pc = .body pc' → pc.claimed = true → pc'.claimed = true →
        th.ref = some r → th'.ref = some r → t = t' := by
  have h := run_invariant (I := Base .firecracker) (fun _ a h => h.step a) base_init acts
  exact ⟨h.exclusive, fun id r hr => (h.ids.vms id r hr).2,
    fun _ _ _ _ _ _ _ hth hth' hop hop' => h.one_call hth hth' hop hop'⟩

end Jerboa.Vm.Lifecycle
