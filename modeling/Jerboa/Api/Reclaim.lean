import Jerboa.Api.Leases

/-!
# No address is leaked

Starting from any state between two requests, let VMs be run, started,
restarted automatically and removed, with every failure of the manager and with
crashes inside VM.Remove.  Once none of the VMs created since then is
registered, the addresses listed are those that were listed before, on three
conditions: every address a client names is spelled as `ReserveIP` lists it; no
VM from before is restarted automatically; and an automatic restart removes the
VM it has replaced only while the replacement is registered and no request is
at work on it.

The invariant follows each listed address to what still needs it: it was listed
before, a new VM has it, or the request under way holds it.
-/

namespace Jerboa.Api.Reclaim

open Lib.Run Net Net.Address Net.Store Api.Server Api.Leases Registry

/-- The daemon between two requests: the VMs have their leases, the intents
left over are those of registered VMs, and no automatic restart is under way. -/
structure Settled (sv : Server) : Prop where
  store : Allocator.Inv sv.netStore
  idle : sv.task = none
  calm : sv.restarts = []
  unique : ∀ id cfg cfg', sv.vms.Holds id cfg → sv.vms.Holds id cfg' → cfg = cfg'
  listed : ∀ id cfg, sv.vms.Holds id cfg → cfg.networkName ≠ [] →
    Listed sv.netStore cfg.networkName cfg.ipAddress
  owned : ∀ net owner ip, Intent sv.netStore net owner ip → sv.vms.has owner = true

def removing : Task → Bool
  | .lookup _ _ => true
  | .prepare _ => true
  | .delete _ _ => true
  | .release _ => true
  | _ => false

/-- The requests considered: they start and remove only VMs created since
`sv₀`, and the daemon dies only inside VM.Remove or between requests. -/
def Own (sv₀ sv : Server) : Action → Prop
  | .run _ => True
  | .start id => sv₀.vms.has id = false
  | .remove id => sv₀.vms.has id = false
  | .task _ => True
  | .stop _ => True
  | .exited _ _ => True
  | .restartVM _ _ => True
  | .restart _ => ∀ t ∈ sv.task, removing t = true
  | _ => False

instance (sv₀ sv : Server) : ∀ act, Decidable (Own sv₀ sv act)
  | .start _ | .remove _ => inferInstanceAs (Decidable (_ = false))
  | .restart _ => inferInstanceAs (Decidable (∀ t ∈ _, _))
  | .run _ | .task _ | .stop _ | .exited _ _ | .restartVM _ _ => .isTrue trivial
  | .networkCreate _ _ _ _ | .networkAllocateIP _ | .networkRemove _ | .networkRemoved _ =>
    .isFalse id

/-- A restart that removes the VM `old` leaves the replacement with its
configuration, and no request is at work on the replacement. -/
def Replaced (sv : Server) (a : Answer) : Restart → Prop
  | .drop old id => a.ok = true →
    (∀ v ∈ sv.vms, v.id = old → ∃ w ∈ sv.vms, w.id = id ∧ id ≠ old ∧ w.cfg = v.cfg) ∧
      ∀ t ∈ sv.task, id ∉ t.vms
  | _ => True

/-- The condition on a step. -/
def Reclaims (sv₀ sv : Server) : Action → Prop
  | .task _ => ∀ t ∈ sv.task, SpelledTask sv.netStore t
  | .exited id restart => restart = true → sv₀.vms.has id = false
  | .restartVM i a => ∀ r ∈ sv.restarts[i]?, Replaced sv a r
  | _ => True

instance (sv : Server) (a : Answer) : ∀ r, Decidable (Replaced sv a r)
  | .drop _ _ => inferInstanceAs (Decidable (_ → (∀ v ∈ _, _ → ∃ w ∈ _, _) ∧ ∀ t ∈ _, _))
  | .wait _ _ | .begin _ _ | .launch _ _ | .publish _ _ => .isTrue trivial

instance (sv₀ sv : Server) : ∀ act, Decidable (Reclaims sv₀ sv act)
  | .task _ | .restartVM _ _ => inferInstanceAs (Decidable (∀ t ∈ _, _))
  | .exited _ _ => inferInstanceAs (Decidable (_ = true → _ = false))
  | .run _ | .start _ | .remove _ | .stop _ | .restart _ => .isTrue trivial
  | .networkCreate _ _ _ _ | .networkAllocateIP _ | .networkRemove _ | .networkRemoved _ =>
    .isTrue trivial

section Predicates

variable (sv₀ : Server) (s : Store) (H : Holders)

def Old (id : Text) : Prop := sv₀.vms.has id = true

def Before (net ip : Text) : Prop := Listed sv₀.netStore net ip

def HeldByNew (net ip : Text) : Prop :=
  ∃ id cfg, H id cfg ∧ ¬Old sv₀ id ∧ cfg.networkName = net ∧ cfg.ipAddress = ip

/-- A VM created since then has, on a network, an address that was not listed
before. -/
def Free (cfg : Config) : Prop :=
  cfg.networkName ≠ [] → ¬Before sv₀ cfg.networkName cfg.ipAddress ∧ cfg.ipAddress ≠ []

/-- `pending` is the address that the request under way holds. -/
structure Core (pending : Option (Text × Text)) : Prop where
  keeps : ∀ net ip, Before sv₀ net ip → Listed s net ip
  held : ∀ net ip, Listed s net ip →
    Before sv₀ net ip ∨ HeldByNew sv₀ H net ip ∨ pending = some (net, ip)
  free : ∀ id cfg, H id cfg → ¬Old sv₀ id → Free sv₀ cfg
  old : ∀ id cfg, H id cfg → Old sv₀ id → cfg.networkName ≠ [] →
    Before sv₀ cfg.networkName cfg.ipAddress
  stays : ∀ id, Old sv₀ id → ∃ cfg, H id cfg
  unique : ∀ id cfg cfg', H id cfg → H id cfg' → cfg = cfg'
  intents : ∀ net owner ip, Intent s net owner ip → Old sv₀ owner ∨ ¬Before sv₀ net ip

/-- Another VM has the address of the VM `id`, which can go. -/
def Covered (id : Text) : Prop :=
  ∀ cfg, H id cfg → cfg.networkName ≠ [] → ∃ i c, H i c ∧ i ≠ id ∧
    c.networkName = cfg.networkName ∧ c.ipAddress = cfg.ipAddress

def CallerInv (id : Text) : Caller → Prop
  | .run net assigned =>
    (assigned ≠ [] → ¬Before sv₀ net assigned) ∧
      ∀ cfg, H id cfg → cfg.networkName ≠ [] →
        cfg.networkName = net ∧ cfg.ipAddress = assigned ∧ assigned ≠ []
  | .inPlace => True
  | .replace old => ¬Old sv₀ old ∧ Covered H old ∧ Covered H id

/-- The VM to be removed is one created since then. -/
def New (v : VM) : Prop :=
  ¬Old sv₀ v.id ∧ Free sv₀ v.cfg ∧ ∀ c, H v.id c → c = v.cfg

def TaskInv : Task → Prop
  | .lease p _ => p.networkName ≠ []
  | .create cfg assigned =>
    Free sv₀ cfg ∧ (cfg.networkName ≠ [] → assigned = cfg.ipAddress) ∧
      (assigned ≠ [] → cfg.networkName ≠ [])
  | .replace old cfg =>
    ¬Old sv₀ old ∧ Free sv₀ cfg ∧ (∀ c, H old c → c = cfg) ∧
      ∃ i c, H i c ∧ c.networkName = cfg.networkName ∧ c.ipAddress = cfg.ipAddress
  | .begin c id => ¬Old sv₀ id ∧ CallerInv sv₀ H id c
  | .launch c id => ¬Old sv₀ id ∧ CallerInv sv₀ H id c
  | .publish c id => ¬Old sv₀ id ∧ CallerInv sv₀ H id c
  | .cleanup c id => c ≠ .inPlace ∧ ¬Old sv₀ id ∧ CallerInv sv₀ H id c
  | .dropOld old => ¬Old sv₀ old ∧ Covered H old
  | .lookup v shared =>
    New sv₀ H v ∧ v.cfg.networkName ≠ [] ∧ (shared = true → Covered H v.id)
  | .prepare v => New sv₀ H v ∧ v.cfg.networkName ≠ []
  | .delete v release =>
    New sv₀ H v ∧
      if release then
        v.cfg.networkName ≠ [] ∧
          (Listed s v.cfg.networkName v.cfg.ipAddress →
            Intent s v.cfg.networkName v.id v.cfg.ipAddress)
      else Covered H v.id
  | .release v =>
    ¬Before sv₀ v.cfg.networkName v.cfg.ipAddress ∧ (∀ c, ¬H v.id c) ∧
      (Listed s v.cfg.networkName v.cfg.ipAddress →
        Intent s v.cfg.networkName v.id v.cfg.ipAddress)
  | .rollback net ip => ¬Before sv₀ net ip

/-- The VMs that are restarted are new. -/
def RestartInv : Restart → Prop
  | .wait old cfg => ¬Old sv₀ old ∧ Free sv₀ cfg
  | .begin old _ => ¬Old sv₀ old
  | .launch old _ => ¬Old sv₀ old
  | .publish old _ => ¬Old sv₀ old
  | .drop old _ => ¬Old sv₀ old

end Predicates

structure Inv (sv₀ sv : Server) : Prop where
  core : Core sv₀ sv.netStore sv.vms.Holds (sv.task.bind Task.holds)
  task : ∀ t ∈ sv.task, TaskInv sv₀ sv.netStore sv.vms.Holds t
  restarts : ∀ r ∈ sv.restarts, RestartInv sv₀ r

variable {sv₀ sv sv' : Server} {s s' : Store} {H H' : Holders} {net ip id : Text} {vms : Registry}
  {p p' : Option (Text × Text)} {cfg : Config} {v : VM} {t : Task} {a : Answer}

/-! ## The registry and the store change -/

theorem Core.not_old (h : Core sv₀ s H p) (hnew : ∀ c, ¬H id c) : ¬Old sv₀ id := fun hold =>
  (h.stays id hold).elim hnew

theorem Core.register (h : Core sv₀ s vms.Holds p) (hfree : Free sv₀ cfg)
    (hnew : ∀ c, ¬vms.Holds id c)
    (hp : ∀ key, p = some key → p' = some key ∨ key = (cfg.networkName, cfg.ipAddress)) :
    Core sv₀ s (vms.create id cfg).Holds p' := by
  have hid := h.not_old hnew
  rw [holds_create]
  refine ⟨h.keeps, ?_, ?_, ?_, ?_, ?_, h.intents⟩
  · intro n t hlisted
    rcases h.held n t hlisted with hbefore | ⟨i, c, hc, hi, hkey⟩ | hpending
    · exact .inl hbefore
    · exact .inr (.inl ⟨i, c, .inl hc, hi, hkey⟩)
    · rcases hp _ hpending with hkept | heq
      · exact .inr (.inr hkept)
      · -- what the request held, the new VM has
        cases heq
        exact .inr (.inl ⟨id, cfg, .inr ⟨rfl, rfl⟩, hid, rfl, rfl⟩)
  · rintro i c (hc | ⟨rfl, rfl⟩) hi
    · exact h.free i c hc hi
    · exact hfree
  · rintro i c (hc | ⟨rfl, rfl⟩) hi
    · exact h.old i c hc hi
    · exact absurd hi hid
  · intro i hi
    obtain ⟨c, hc⟩ := h.stays i hi
    exact ⟨c, .inl hc⟩
  · rintro i c c' (hc | ⟨rfl, rfl⟩) (hc' | ⟨hi, rfl⟩)
    · exact h.unique i c c' hc hc'
    · exact absurd (hi ▸ hc) (hnew c)
    · exact absurd hc' (hnew c')
    · rfl

theorem Core.unregister (h : Core sv₀ s vms.Holds p) (hid : ¬Old sv₀ id)
    (hp : ∀ key, p = some key → p' = some key)
    (hheld : ∀ cfg, vms.Holds id cfg → Listed s cfg.networkName cfg.ipAddress →
      HeldByNew sv₀ (fun i c => vms.Holds i c ∧ i ≠ id) cfg.networkName cfg.ipAddress ∨
        p' = some (cfg.networkName, cfg.ipAddress)) :
    Core sv₀ s (vms.unregister id).Holds p' := by
  rw [holds_unregister]
  refine ⟨h.keeps, ?_, fun i c hc => h.free i c hc.1, fun i c hc => h.old i c hc.1, ?_,
    fun i c c' hc hc' => h.unique i c c' hc.1 hc'.1, h.intents⟩
  · intro n t hlisted
    rcases h.held n t hlisted with hbefore | ⟨i, c, hc, hi, rfl, rfl⟩ | hpending
    · exact .inl hbefore
    · by_cases heq : i = id
      · subst heq
        exact .inr (hheld c hc hlisted)
      · exact .inr (.inl ⟨i, c, ⟨hc, heq⟩, hi, rfl, rfl⟩)
    · exact .inr (.inr (hp _ hpending))
  · intro i hi
    obtain ⟨c, hc⟩ := h.stays i hi
    exact ⟨c, hc, fun heq => hid (heq ▸ hi)⟩

theorem Core.unregister_covered (h : Core sv₀ s vms.Holds p) (hinv : Allocator.Inv s)
    (hid : ¬Old sv₀ id) (hcovered : Covered vms.Holds id) :
    Core sv₀ s (vms.unregister id).Holds p := by
  refine h.unregister hid (fun _ h => h) fun cfg hcfg hlisted => .inl ?_
  have hnet := listed_ne_nil hinv hlisted
  obtain ⟨i, c, hc, hne, hsameNet, hsameIP⟩ := hcovered cfg hcfg hnet
  -- a VM from before has an address from before
  refine ⟨i, c, ⟨hc, hne⟩, fun hi => ?_, hsameNet, hsameIP⟩
  have hbefore := h.old i c hc hi (hsameNet ▸ hnet)
  rw [hsameNet, hsameIP] at hbefore
  exact (h.free id cfg hcfg hid hnet).1 hbefore

theorem Core.adds (h : Core sv₀ s H none) (hadds : Adds s s' net ip) :
    Core sv₀ s' H (some (net, ip)) := by
  refine ⟨fun n t hb => (hadds.listed n t).mpr (.inl (h.keeps n t hb)), ?_, h.free, h.old,
    h.stays, h.unique, fun n o t hi => h.intents n o t ((hadds.intent n o t).mp hi)⟩
  intro n t hlisted
  rcases (hadds.listed n t).mp hlisted with hold | ⟨rfl, rfl⟩
  · exact (h.held n t hold).imp_right fun hor => .inl (hor.resolve_right nofun)
  · exact .inr (.inr rfl)

/-- What was pending is listed no more. -/
theorem Core.resolve (h : Core sv₀ s H p) (hkeeps : ∀ n t, Before sv₀ n t → Listed s' n t)
    (hgone : ∀ n t, Listed s' n t → Listed s n t ∧ p ≠ some (n, t))
    (hintent : ∀ n o t, Intent s' n o t → Intent s n o t) : Core sv₀ s' H none := by
  refine ⟨hkeeps, fun n t hlisted => ?_, h.free, h.old, h.stays, h.unique,
    fun n o t hi => h.intents n o t (hintent n o t hi)⟩
  rcases h.held n t (hgone n t hlisted).1 with hbefore | hheld | hpending
  · exact .inl hbefore
  · exact .inr (.inl hheld)
  · exact absurd hpending (hgone n t hlisted).2

theorem Core.release (hinv : Allocator.Inv s) (h : Core sv₀ s H (some (net, ip)))
    (hbefore : ¬Before sv₀ net ip) (hrelease : s.releaseIP net ip = .ok s') :
    Core sv₀ s' H none := by
  have hdrops := releaseIP_drops hrelease
  refine h.resolve (fun n t hb => ?_) (fun n t hlisted => ⟨hdrops.listed_of n t hlisted, ?_⟩)
    hdrops.intent_of
  · exact hdrops.keeps n t (h.keeps n t hb) fun ⟨hn, ht⟩ => hbefore (hn ▸ ht ▸ hb)
  · rintro ⟨⟩
    exact not_listed_of_releaseIP hinv hrelease hlisted

theorem Core.prepare (h : Core sv₀ s H p)
    (hprep : Prepares s s' v.cfg.networkName v.id v.cfg.ipAddress)
    (hbefore : ¬Before sv₀ v.cfg.networkName v.cfg.ipAddress) : Core sv₀ s' H p := by
  refine ⟨fun n t hb => (hprep.listed n t).mpr (h.keeps n t hb),
    fun n t hl => h.held n t ((hprep.listed n t).mp hl), h.free, h.old, h.stays, h.unique, ?_⟩
  intro n o t hi
  rcases hprep.intent_of n o t hi with hold | ⟨rfl, rfl, rfl, -⟩
  · exact h.intents n o t hold
  · exact .inr hbefore

theorem Core.recover (hinv : Allocator.Inv s) (h : Core sv₀ s H p)
    {live : Text → Bool} (hlive : ∀ id, live id = true ↔ ∃ cfg, H id cfg)
    (hp : ∀ net ip, p = some (net, ip) → Listed s net ip →
      ∃ owner, Intent s net owner ip ∧ ∀ cfg, ¬H owner cfg) :
    Core sv₀ (s.recoverReleases live) H none := by
  refine h.resolve (fun n t hb => ?_)
    (fun n t hlisted => ⟨listed_of_recoverReleases hlisted, fun hpending => ?_⟩)
    fun n o t hi => absurd hi (not_intent_recoverReleases live n o t)
  · refine listed_recoverReleases (h.keeps n t hb) fun owner hi => ?_
    rcases h.intents n owner t hi with hold | hnot
    · exact (hlive owner).mpr (h.stays owner hold)
    · exact absurd hb hnot
  · obtain ⟨owner, hi, hgone⟩ := hp n t hpending (listed_of_recoverReleases hlisted)
    have hdead : live owner = false := by
      rw [← Bool.not_eq_true, hlive]
      exact fun ⟨c, hc⟩ => hgone c hc
    exact not_listed_recoverReleases hinv hi hdead hlisted

/-- An automatic restart registers or removes a VM beside the request: the VMs
the request is at work on get no new configuration, and whoever had an address
that one of them has, that VM or another still has it. -/
theorem TaskInv.beside (h : TaskInv sv₀ s H t) (hsame : ∀ i ∈ t.vms, ∀ c, H' i c → H i c)
    (hother : ∀ j c, H j c → ∃ j' c', H' j' c' ∧ c'.networkName = c.networkName ∧
      c'.ipAddress = c.ipAddress ∧ ∀ i ∈ t.vms, j ≠ i → j' ≠ i) : TaskInv sv₀ s H' t := by
  have hcovered : ∀ {i}, i ∈ t.vms → Covered H i → Covered H' i := by
    intro i hi hc cfg hcfg hnet
    obtain ⟨j, c, hj, hne, hsameNet, hsameIP⟩ := hc cfg (hsame i hi cfg hcfg) hnet
    obtain ⟨j', c', hj', hnet', hip', hne'⟩ := hother j c hj
    exact ⟨j', c', hj', hne' i hi hne, hnet'.trans hsameNet, hip'.trans hsameIP⟩
  have hcaller : ∀ {c id}, id ∈ t.vms → (∀ i ∈ c.vms, i ∈ t.vms) → CallerInv sv₀ H id c →
      CallerInv sv₀ H' id c := by
    intro c id hid hvms hc
    cases c with
    | run => exact ⟨hc.1, fun cfg hcfg => hc.2 cfg (hsame id hid cfg hcfg)⟩
    | inPlace => trivial
    | replace old =>
      exact ⟨hc.1, hcovered (hvms old (by simp [Caller.vms])) hc.2.1, hcovered hid hc.2.2⟩
  have hnew : ∀ {v : VM}, v.id ∈ t.vms → New sv₀ H v → New sv₀ H' v :=
    fun hv hn => ⟨hn.1, hn.2.1, fun c hc => hn.2.2 c (hsame _ hv c hc)⟩
  cases t with
  | lease | create | rollback => exact h
  | replace old cfg =>
    obtain ⟨hold, hfree, hcfg, i, c, hi, hnet, hip⟩ := h
    obtain ⟨j, c', hj, hnet', hip', -⟩ := hother i c hi
    exact ⟨hold, hfree, fun c hc => hcfg c (hsame old (by simp [Task.vms]) c hc), j, c', hj,
      hnet'.trans hnet, hip'.trans hip⟩
  | begin | launch | publish =>
    exact ⟨h.1, hcaller (by simp [Task.vms]) (by simp +contextual [Task.vms]) h.2⟩
  | cleanup =>
    exact ⟨h.1, h.2.1, hcaller (by simp [Task.vms]) (by simp +contextual [Task.vms]) h.2.2⟩
  | dropOld => exact ⟨h.1, hcovered (by simp [Task.vms]) h.2⟩
  | lookup =>
    exact ⟨hnew (by simp [Task.vms]) h.1, h.2.1, fun hs => hcovered (by simp [Task.vms]) (h.2.2 hs)⟩
  | prepare => exact ⟨hnew (by simp [Task.vms]) h.1, h.2⟩
  | delete v release =>
    refine ⟨hnew (by simp [Task.vms]) h.1, ?_⟩
    cases release with
    | false => exact hcovered (by simp [Task.vms]) h.2
    | true => exact h.2
  | release v =>
    exact ⟨h.1, fun c hc => h.2.1 c (hsame _ (by simp [Task.vms]) c hc), h.2.2⟩

/-! ## One step -/

theorem Core.weaken (h : Core sv₀ s H none) (p : Option (Text × Text)) : Core sv₀ s H p :=
  { h with
    held := fun n t hl => (h.held n t hl).imp_right fun hor => .inl (hor.resolve_right nofun) }

section

variable (hr : ∀ r ∈ sv.restarts, RestartInv sv₀ r)
include hr

theorem inv_done (h : Core sv₀ sv.netStore sv.vms.Holds none) : Inv sv₀ sv.done :=
  ⟨h, by simp [done], hr⟩

theorem inv_next (h : Core sv₀ sv.netStore sv.vms.Holds t.holds)
    (ht : TaskInv sv₀ sv.netStore sv.vms.Holds t) : Inv sv₀ (sv.next t) := by
  refine ⟨h, ?_, hr⟩
  rintro _ ⟨⟩
  exact ht

theorem inv_created {assigned : Text}
    (h : Core sv₀ sv.netStore sv.vms.Holds (Task.create cfg assigned).holds)
    (ht : TaskInv sv₀ sv.netStore sv.vms.Holds (.create cfg assigned))
    (hfresh : ∀ c, ¬sv.vms.Holds id c) :
    Inv sv₀ ({ sv with vms := sv.vms.create id cfg }.next
      (.begin (.run cfg.networkName assigned) id)) := by
  obtain ⟨hfree, hassigned, hnamed⟩ := ht
  refine inv_next hr (h.register hfree hfresh fun key hkey => .inr ?_)
    ⟨h.not_old hfresh, fun hne => ?_, fun c hc hnet => ?_⟩
  · rw [Task.holds] at hkey
    split_ifs at hkey with hempty
    cases hkey
    rw [hassigned (hnamed hempty)]
  · rw [hassigned (hnamed hne)]
    exact (hfree (hnamed hne)).1
  · rw [holds_create] at hc
    rcases hc with hold | ⟨-, rfl⟩
    · exact absurd hold (hfresh c)
    · rw [hassigned hnet]
      exact ⟨rfl, rfl, (hfree hnet).2⟩

theorem inv_replaced {old : Text} (h : Core sv₀ sv.netStore sv.vms.Holds none)
    (ht : TaskInv sv₀ sv.netStore sv.vms.Holds (.replace old cfg))
    (hfresh : ∀ c, ¬sv.vms.Holds id c) (hne : id ≠ old) :
    Inv sv₀ ({ sv with vms := sv.vms.create id cfg }.next (.begin (.replace old) id)) := by
  obtain ⟨hold, hfree, hcfg, i, c, hi, hnet, hip⟩ := ht
  refine inv_next hr (h.register hfree hfresh nofun) ⟨h.not_old hfresh, hold, ?_, ?_⟩
  · intro c' hc' _
    simp only [holds_create] at hc' ⊢
    rcases hc' with hc' | ⟨heq, -⟩
    · rw [hcfg c' hc']
      exact ⟨id, cfg, .inr ⟨rfl, rfl⟩, hne, rfl, rfl⟩
    · exact absurd heq.symm hne
  · intro c' hc' _
    simp only [holds_create] at hc' ⊢
    rcases hc' with hc' | ⟨-, rfl⟩
    · exact absurd hc' (hfresh c')
    · exact ⟨i, c, .inl hi, fun heq => hfresh c (heq ▸ hi), hnet, hip⟩

theorem inv_cleaned {c : Caller} (hinv : Allocator.Inv sv.netStore)
    (h : Core sv₀ sv.netStore sv.vms.Holds none)
    (ht : TaskInv sv₀ sv.netStore sv.vms.Holds (.cleanup c id))
    (hrun : ∀ net assigned, c = .run net assigned → assigned = []) :
    Inv sv₀ { sv with vms := sv.vms.unregister id }.done := by
  obtain ⟨hcaller, hid, hc⟩ := ht
  cases c with
  | inPlace => exact absurd rfl hcaller
  | run net assigned =>
    refine inv_done hr (h.unregister hid nofun fun cfg hcfg hlisted => ?_)
    exact absurd (hrun _ _ rfl) (hc.2 cfg hcfg (listed_ne_nil hinv hlisted)).2.2
  | replace => exact inv_done hr (h.unregister_covered hinv hid hc.2.2)

theorem inv_turn (hinv : Allocator.Inv sv.netStore)
    (h : Core sv₀ sv.netStore sv.vms.Holds t.holds)
    (ht : TaskInv sv₀ sv.netStore sv.vms.Holds t) (hnew : ∀ id, sv.fresh id = true → id ∉ t.vms)
    (hspelled : SpelledTask sv.netStore t) (hturn : Turn sv a t sv') : Inv sv₀ sv' := by
  cases hturn with
  | stop hholds => exact inv_done hr (by rwa [hholds] at h)
  | leased _ hne hadds =>
    have hadds := hadds hspelled
    refine inv_next hr ?_ ⟨fun _ => ⟨fun hb => hadds.fresh (h.keeps _ _ hb), hne⟩, fun _ => rfl,
      fun _ => ht⟩
    rw [Task.holds, if_neg hne]
    exact h.adds hadds
  | created hfresh => exact inv_created hr h ht (not_holds_of_has (has_of_fresh hfresh))
  | notCreated hne =>
    rw [Task.holds, if_neg hne] at h
    refine inv_next hr h ?_
    rw [ht.2.1 (ht.2.2 hne)]
    exact (ht.1 (ht.2.2 hne)).1
  | replaced _ hfresh =>
    exact inv_replaced hr h ht (not_holds_of_has (has_of_fresh hfresh)) fun heq =>
      hnew _ hfresh (by simp [Task.vms, heq])
  | began | launched => exact inv_next hr (by rwa [holds_setState]) (by rwa [holds_setState])
  | started => exact inv_next hr h ⟨ht.2.1, ht.2.2.1⟩
  | notStarted hc htask =>
    rcases htask with rfl | rfl | rfl <;> exact inv_next hr h ⟨hc, ht⟩
  | cleaned hrun => exact inv_cleaned hr hinv h ht hrun
  | cleanedRun hne =>
    obtain ⟨-, hid, hbefore, hkey⟩ := ht
    refine inv_next hr (h.unregister hid (fun _ h => by cases h) fun cfg hcfg hlisted => .inr ?_)
      (hbefore hne)
    obtain ⟨hnet, hip, -⟩ := hkey cfg hcfg (listed_ne_nil hinv hlisted)
    rw [Task.holds, hnet, hip]
  | dropped => exact inv_done hr (h.unregister_covered hinv ht.1 ht.2)
  | alone => exact inv_next hr h ⟨ht.1, ht.2.1⟩
  | shared => exact inv_next hr h ⟨ht.1, ht.2.2 rfl⟩
  | prepared _ hprep =>
    obtain ⟨hv, hnet⟩ := ht
    exact inv_next hr (h.prepare hprep (hv.2.1 hnet).1) ⟨hv, hnet, fun hlisted =>
      hprep.records ((hprep.listed _ _).mp hlisted)⟩
  | deleted => exact inv_done hr (h.unregister_covered hinv ht.1.1 ht.2)
  | deletedLast =>
    obtain ⟨⟨hid, hfree, hcfg⟩, hnet, hintent⟩ := ht
    refine inv_next hr (h.unregister hid (fun _ h => by cases h) fun c hc _ => .inr ?_)
      ⟨(hfree hnet).1, fun c hc => ?_, hintent⟩
    · rw [hcfg c hc]
      rfl
    · rw [holds_unregister] at hc
      exact hc.2 rfl
  | @released t net ip _ hholds hcreate hrelease =>
    have hbefore : ¬Before sv₀ net ip := by
      cases t with
      | create => exact absurd rfl (hcreate _ _)
      | release => cases hholds; exact ht.1
      | rollback => cases hholds; exact ht
      | _ => cases hholds
    rw [hholds] at h
    exact inv_done hr (h.release hinv hbefore hrelease)
  | networkGone hholds hfind =>
    refine inv_done hr (h.resolve h.keeps (fun n t hlisted => ⟨hlisted, ?_⟩) fun _ _ _ hi => hi)
    rw [hholds]
    rintro ⟨⟩
    exact not_listed_of_find? hfind _ hlisted

end

theorem restartInv_step {r r' : Restart} {isNew : Bool} (h : RestartInv sv₀ r)
    (hr' : r' ∈ (r.step vms a isNew).2) : RestartInv sv₀ r' := by
  cases r with
  | drop => cases hr'
  | wait =>
    simp only [Restart.step] at hr'
    split at hr' <;> cases hr'
    exact h.1
  | _ =>
    simp only [Restart.step] at hr'
    split at hr' <;> cases hr'
    exact h

theorem inv_stepRestart {r : Restart} {i : Nat} (hinv : Allocator.Inv sv.netStore) (h : Inv sv₀ sv)
    (hr : RestartInv sv₀ r) (hcond : Replaced sv a r) : Inv sv₀ (sv.stepRestart i a r) := by
  have hrestarts : ∀ r' ∈ (sv.stepRestart i a r).restarts, RestartInv sv₀ r' := by
    intro r' hr'
    simp only [stepRestart, List.mem_append, Option.mem_toList] at hr'
    rcases hr' with hold | hnext
    · exact h.restarts r' (List.mem_of_mem_eraseIdx hold)
    · exact restartInv_step hr hnext
  have hmoves : (sv.stepRestart i a r).vms.Holds = sv.vms.Holds →
      Inv sv₀ (sv.stepRestart i a r) := by
    intro heq
    exact ⟨by rw [heq]; exact h.core, by rw [heq]; exact h.task, hrestarts⟩
  cases r with
  | wait old cfg =>
    by_cases hok : a.ok ∧ sv.fresh a.id
    · have hvms : (sv.stepRestart i a (.wait old cfg)).vms = sv.vms.create a.id cfg := by
        rw [stepRestart, Restart.step, if_pos hok]
      have hfresh := not_holds_of_has (has_of_fresh hok.2)
      refine ⟨?_, fun t ht => ?_, hrestarts⟩
      · rw [hvms]
        exact h.core.register hr.2 hfresh fun _ => .inl
      · rw [hvms, holds_create]
        refine (h.task t ht).beside ?_ fun j c hj => ⟨j, c, .inl hj, rfl, rfl, fun _ _ => id⟩
        rintro j hj c (hc | ⟨rfl, -⟩)
        · exact hc
        · exact absurd hj (notMem_of_fresh hok.2 ht)
    · exact hmoves (by rw [stepRestart, Restart.step, if_neg hok])
  | begin | launch =>
    apply hmoves
    simp only [stepRestart, Restart.step]
    split
    · rename_i vms hvms
      split_ifs at hvms
      exact holds_transition hvms
    · rfl
  | publish => exact hmoves rfl
  | drop old id =>
    by_cases hok : a.ok = true
    · obtain ⟨hreplaced, halone⟩ := hcond hok
      have hvms : (sv.stepRestart i a (.drop old id)).vms = sv.vms.unregister old := by
        rw [stepRestart, Restart.step, if_pos hok]
      have hcovered : Covered sv.vms.Holds old := by
        rintro cfg ⟨v, hv, hid, rfl⟩ _
        obtain ⟨w, hw, rfl, hne, hcfg⟩ := hreplaced v hv hid
        exact ⟨w.id, w.cfg, ⟨w, hw, rfl, rfl⟩, hne, by rw [hcfg], by rw [hcfg]⟩
      refine ⟨?_, fun t ht => ?_, hrestarts⟩
      · rw [hvms]
        exact h.core.unregister_covered hinv hr hcovered
      · rw [hvms, holds_unregister]
        refine (h.task t ht).beside (fun j _ c hc => hc.1) ?_
        rintro j c ⟨v, hv, rfl, rfl⟩
        by_cases hid : v.id = old
        · obtain ⟨w, hw, rfl, hne, hcfg⟩ := hreplaced v hv hid
          refine ⟨w.id, w.cfg, ⟨⟨w, hw, rfl, rfl⟩, hne⟩, by rw [hcfg], by rw [hcfg], ?_⟩
          exact fun i hi _ heq => halone t ht (heq ▸ hi)
        · exact ⟨v.id, v.cfg, ⟨⟨v, hv, rfl, rfl⟩, hid⟩, rfl, rfl, fun _ _ h => h⟩
    · exact hmoves (by rw [stepRestart, Restart.step, if_neg hok])

/-! ## Runs -/

theorem not_old_of_has (h : sv₀.vms.has id = false) : ¬Old sv₀ id := by
  simp [Old, h]

theorem inv_opens {act : Action} (h : Inv sv₀ sv) (htask : sv.task = none) (hown : Own sv₀ sv act)
    (hopens : Opens sv act t) : Inv sv₀ (sv.next t) := by
  have hcore := h.core
  rw [htask] at hcore
  have hnew : ∀ {v : VM}, v ∈ sv.vms → sv₀.vms.has v.id = false → New sv₀ sv.vms.Holds v := by
    intro v hv hid
    have hv' : sv.vms.Holds v.id v.cfg := ⟨v, hv, rfl, rfl⟩
    exact ⟨not_old_of_has hid, hcore.free _ _ hv' (not_old_of_has hid),
      fun c hc => hcore.unique _ c _ hc hv'⟩
  refine inv_next h.restarts (hcore.weaken _) ?_
  cases hopens with
  | detached =>
    exact ⟨fun hne => absurd rfl hne, fun hne => absurd rfl hne, fun hne => absurd rfl hne⟩
  | lease hnet => exact hnet
  | inPlace hv => exact ⟨not_old_of_has hown, trivial⟩
  | @replace v hv =>
    obtain ⟨hid, hfree, hcfg⟩ := hnew hv hown
    exact ⟨hid, hfree, hcfg, v.id, v.cfg, ⟨v, hv, rfl, rfl⟩, rfl, rfl⟩
  | lookup hv hnet =>
    refine ⟨hnew hv hown, hnet, fun hshared cfg hcfg _ => ?_⟩
    obtain ⟨w, hw, hne, hsame⟩ := shared_iff.mp hshared
    rw [(hnew hv hown).2.2 cfg hcfg]
    exact ⟨w.id, w.cfg, ⟨w, hw, rfl, rfl⟩, hne, hsame⟩
  | delete hv hnet =>
    refine ⟨hnew hv hown, fun cfg hcfg hname => ?_⟩
    cases (hnew hv hown).2.2 cfg hcfg
    exact absurd (hnet hname) ((hnew hv hown).2.1 hname).2

theorem inv_restart (hinv : Allocator.Inv sv.netStore) (h : Inv sv₀ sv)
    (hown : ∀ t ∈ sv.task, removing t = true) (states : Text → State) :
    Inv sv₀ (sv.step (.restart states)) := by
  refine ⟨?_, by simp [step], by simp [step]⟩
  simp only [step, holds_restored]
  refine h.core.recover hinv (fun id => has_iff) ?_
  intro net ip hpending hlisted
  obtain ⟨t, htask, hholds⟩ := Option.bind_eq_some_iff.mp hpending
  have hremoving := hown t htask
  have ht := h.task t htask
  -- of the steps of VM.Remove only the last holds an address
  cases t with
  | release v =>
    cases hholds
    exact ⟨v.id, ht.2.2 hlisted, ht.2.1⟩
  | create | rollback => cases hremoving
  | _ => cases hholds

theorem inv_step {act : Action} (hinv : Allocator.Inv sv.netStore) (h : Inv sv₀ sv)
    (hown : Own sv₀ sv act) (hcond : Reclaims sv₀ sv act) : Inv sv₀ (sv.step act) := by
  by_cases hact : act.isRequest = true
  · rcases step_request sv hact with heq | ⟨htask, t, hopens, heq⟩ <;> rw [heq]
    · exact h
    · exact inv_opens h htask hown hopens
  cases act with
  | run | start | remove => exact absurd rfl hact
  | task a =>
    simp only [step]
    split
    · rename_i t htask
      have hcore := h.core
      rw [htask] at hcore
      exact inv_turn h.restarts hinv hcore (h.task t htask)
        (fun id hid => notMem_of_fresh hid htask)
        (hcond t htask) (turn_stepTask hinv a t)
    · exact h
  | stop =>
    refine ⟨?_, ?_, h.restarts⟩ <;> simp only [step, holds_getD_transition]
    · exact h.core
    · exact h.task
  | exited id restart =>
    refine ⟨?_, ?_, fun r hr => ?_⟩
    · simp only [step, holds_getD_transition]
      exact h.core
    · simp only [step, holds_getD_transition]
      exact h.task
    · rcases List.mem_append.mp hr with hold | hnew
      · exact h.restarts r hold
      · unfold monitor at hnew
        split at hnew
        · rename_i v hget
          obtain ⟨-, rfl⟩ := mem_of_get hget
          split_ifs at hnew with hrestart
          · cases List.mem_singleton.mp hnew
            have hid := not_old_of_has (hcond hrestart)
            exact ⟨hid, h.core.free _ _ (holds_of_get hget) hid⟩
          · cases hnew
        · cases hnew
  | restartVM i a =>
    simp only [step]
    split
    · rename_i r hr
      exact inv_stepRestart hinv h (h.restarts r (List.mem_of_getElem? hr)) (hcond r hr)
    · exact h
  | networkCreate | networkAllocateIP | networkRemove | networkRemoved => exact hown.elim
  | restart states => exact inv_restart hinv h hown states

end Jerboa.Api.Reclaim
