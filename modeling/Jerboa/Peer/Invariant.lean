import Jerboa.Lib.Table
import Jerboa.Peer.Tables

/-!
# The invariant of the peer switch

The counts of the members and the numbers of the pairs, act by act, and with them
the invariant of the switch in every run.
-/

namespace Jerboa.Peer

open List Function Lib Lib.Run

/-! ## Counts -/

namespace Switch

def pairsOf (σ : Switch) (m : Nat) : Nat := σ.pairRefs.countP (σ.involves m)

def owedBy (σ : Switch) (o : List (Nat × Fin 2)) (m : Nat) : Nat :=
  o.countP fun x => σ.memberOf x.1 x.2 == m

end Switch

/-- Each member counts its pairs, and the removed ones it still owes. -/
structure Counts (o : List (Nat × Fin 2)) (σ : Switch) : Prop where
  count : ∀ m, (σ.memberAt m).pairs = (σ.pairsOf m : Int) + σ.owedBy o m
  limit : ∀ m, (σ.memberAt m).pairs ≤ peerMaxPerVM

variable {σ σ' : Switch}

theorem SameTables.pairRefs (h : SameTables σ σ') : σ'.pairRefs = σ.pairRefs := by
  rw [Switch.pairRefs, Switch.pairRefs, h.pairs]

theorem SameTables.pairsOf (h : SameTables σ σ') (m : Nat) :
    σ'.pairsOf m = σ.pairsOf m := by
  rw [Switch.pairsOf, Switch.pairsOf, h.pairRefs]
  refine countP_congr fun r _ => ?_
  rw [Switch.involves, Switch.involves, h.memberOf, h.memberOf]

theorem SameTables.owedBy (h : SameTables σ σ') (o : List (Nat × Fin 2)) (m : Nat) :
    σ'.owedBy o m = σ.owedBy o m := by
  rw [Switch.owedBy, Switch.owedBy]
  refine countP_congr fun x _ => ?_
  rw [h.memberOf]

theorem Counts.congr {o : List (Nat × Fin 2)} (h : Counts o σ) (hs : SameTables σ σ')
    (hp : ∀ m, (σ'.memberAt m).pairs = (σ.memberAt m).pairs) : Counts o σ' where
  count m := by
    rw [hp, hs.pairsOf, hs.owedBy]
    exact h.count m
  limit m := by
    rw [hp]
    exact h.limit m

variable {r : Nat} {c c' : Config} {strict : Prop}

section Change

variable {o : List (Nat × Fin 2)} {e : List Nat} {σ : Switch}

theorem pairs_settle (σ : Switch) (r : Nat) (i : Fin 2) (m : Nat) :
    ((σ.settle r i).memberAt m).pairs =
      (σ.memberAt m).pairs - if σ.memberOf r i = m then 1 else 0 := by
  rw [Switch.settle_eq]
  rcases eq_or_ne (σ.memberOf r i) m with rfl | hne
  · simp
  · simp [hne, hne.symm]

theorem Counts.settle {i : Fin 2} (h : Counts ((r, i) :: o) σ) :
    Counts o (σ.settle r i) where
  count m := by
    have hcount := h.count m
    rw [pairs_settle, (same_settle σ r i).pairsOf, (same_settle σ r i).owedBy]
    simp only [Switch.owedBy, countP_cons, beq_iff_eq] at hcount ⊢
    split_ifs at hcount ⊢ <;> omega
  limit m := by
    have hlimit := h.limit m
    rw [pairs_settle]
    split_ifs <;> omega

theorem perm_pairRefs_unlink (hr : σ.InTable r) :
    σ.pairRefs.Perm (r :: (σ.unlink r).pairRefs) := by
  have hperm := (Table.perm_cons_erase hr).map fun x : (_ : PairKey) × Nat => x.2
  exact hperm

theorem Counts.unlink (h : Counts o σ) (ht : Tables o e σ) (hr : σ.InTable r) :
    Counts ((r, 0) :: (r, 1) :: o) (σ.unlink r) where
  count m := by
    have hcount := h.count m
    have hne := ht.distinct r (ht.lt_of_inTable hr)
    rw [Switch.pairsOf, (perm_pairRefs_unlink hr).countP_eq] at hcount
    change (σ.memberAt m).pairs =
      (((σ.unlink r).pairRefs.countP (σ.involves m) : Nat) : Int) +
        σ.owedBy ((r, 0) :: (r, 1) :: o) m
    simp only [Switch.owedBy, countP_cons, Switch.involves, beq_iff_eq, Bool.or_eq_true]
      at hcount ⊢
    rw [hcount]
    split_ifs <;> simp_all <;> omega
  limit := h.limit

theorem pairs_shut (σ : Switch) (s m : Nat) :
    ((σ.shut s).memberAt m).pairs = (σ.memberAt m).pairs := by
  rw [Switch.shut_eq]
  split_ifs
  · rcases eq_or_ne m (σ.sessionAt s).member with rfl | hne <;> simp [*]
  · rfl

theorem Counts.of_eq {σ' : Switch} (h : Counts o σ) (hpairs : σ'.pairs = σ.pairs)
    (hp : ∀ m, (σ'.memberAt m).pairs = (σ.memberAt m).pairs)
    (hof : ∀ r ∈ σ.pairRefs, ∀ i, σ'.memberOf r i = σ.memberOf r i)
    (howed : ∀ x ∈ o, σ'.memberOf x.1 x.2 = σ.memberOf x.1 x.2) : Counts o σ' := by
  have hpairsOf : ∀ m, σ'.pairsOf m = σ.pairsOf m := by
    intro m
    rw [Switch.pairsOf, Switch.pairsOf, Switch.pairRefs, hpairs]
    refine countP_congr fun r hr => ?_
    rw [Switch.involves, Switch.involves, hof r hr, hof r hr]
  have howedBy : ∀ m, σ'.owedBy o m = σ.owedBy o m := by
    intro m
    refine countP_congr fun x hx => ?_
    rw [howed x hx]
  exact ⟨fun m => by rw [hp, hpairsOf, howedBy, h.count], fun m => by rw [hp]; exact h.limit m⟩

theorem Tables.lt_of_mem_pairRefs (ht : Tables o e σ) (hr : r ∈ σ.pairRefs) :
    r < σ.nextPair := by
  obtain ⟨x, hx, rfl⟩ := mem_map.mp hr
  exact (ht.pairKey x.1 x.2 (AList.mem_lookup_iff.mpr hx)).1

theorem Tables.memberOf_lt (ht : Tables o e σ) (hr : r < σ.nextPair) (i : Fin 2) :
    σ.memberOf r i < σ.nextMember :=
  ht.madeMember _ (ht.madeSide r hr i)

theorem Counts.enroll (h : Counts [] σ) (ht : Tables [] [] σ) (mac : MAC) (ip : IPv4) :
    Counts [] (σ.enroll mac ip) := by
  have hnone : σ.pairsOf σ.nextMember = 0 := by
    refine countP_eq_zero.mpr fun r hr => ?_
    have h0 := ht.memberOf_lt (ht.lt_of_mem_pairRefs hr) 0
    have h1 := ht.memberOf_lt (ht.lt_of_mem_pairRefs hr) 1
    simp only [Switch.involves, Bool.or_eq_true, beq_iff_eq, not_or]
    omega
  have hzero := h.count σ.nextMember
  rw [hnone] at hzero
  refine h.of_eq rfl (fun m => ?_) (fun _ _ _ => rfl) fun _ _ => rfl
  simp only [Switch.enroll]
  rcases eq_or_ne m σ.nextMember with rfl | hne
  · rw [update_self, hzero]
    rfl
  · rw [update_of_ne hne]

theorem memberOf_install (ht : Tables [] [] σ) (m : Nat) (hr : r < σ.nextPair) (i : Fin 2) :
    (σ.install m).memberOf r i = σ.memberOf r i := by
  change (update σ.sessionAt σ.nextSession _ ((σ.pairAt r).side i)).member = _
  rw [update_of_ne (Nat.ne_of_lt (ht.madeSide r hr i))]
  rfl

theorem Counts.install (h : Counts [] σ) (ht : Tables [] [] σ) (m : Nat) :
    Counts [] (σ.install m) := by
  refine h.of_eq rfl (fun m' => ?_)
    (fun r hr i => memberOf_install ht m (ht.lt_of_mem_pairRefs hr) i) fun x hx =>
      absurd hx not_mem_nil
  rcases eq_or_ne m' m with rfl | hne <;> simp [Switch.install, *]

theorem memberOf_link_of_ne (σ : Switch) (src d a b : Nat) (key : PairKey) (hr : r ≠ σ.nextPair)
    (i : Fin 2) :
    (σ.link src d a b key).memberOf r i = σ.memberOf r i := by
  rw [Switch.memberOf, pairAt_link_of_ne σ src d a b key hr]
  rfl

theorem pairs_link {src d : Nat} (hne : d ≠ src) (a b : Nat) (key : PairKey) (m : Nat) :
    ((σ.link src d a b key).memberAt m).pairs =
      (σ.memberAt m).pairs + if src = m ∨ d = m then 1 else 0 := by
  simp only [Switch.link, Switch.setMember]
  rcases eq_or_ne m d with rfl | hmd
  · simp [hne]
  · rcases eq_or_ne m src with rfl | hms
    · simp [hmd]
    · simp [hmd, hms, hmd.symm, hms.symm]

theorem Counts.link (h : Counts [] σ) (ht : Tables [] [] σ) {src d a b now : Nat} {dst : MAC}
    (hpair : σ.pairable src dst now = some (d, a, b)) :
    Counts [] (σ.link src d a b (makePairKey (σ.memberAt src).mac dst)) := by
  obtain ⟨-, hne, ha, hb, hsrc, hd, hkey⟩ := pairable_eq_some hpair
  set key := makePairKey (σ.memberAt src).mac dst
  have hrefs : (σ.link src d a b key).pairRefs = σ.nextPair :: σ.pairRefs := by
    have hentries := AList.entries_insert_of_notMem (b := σ.nextPair) (AList.lookup_eq_none.mp hkey)
    exact congrArg (List.map fun x : (_ : PairKey) × Nat => x.2) hentries
  have hnew : ∀ m, (σ.link src d a b key).involves m σ.nextPair = (src == m || d == m) := by
    intro m
    simp only [Switch.involves, Switch.memberOf, pairAt_link]
    change ((σ.sessionAt a).member == m || (σ.sessionAt b).member == m) = _
    rw [(ht.current src a ha).2.1, (ht.current d b hb).2.1]
  have hold : ∀ m, σ.pairRefs.countP ((σ.link src d a b key).involves m) = σ.pairsOf m := by
    intro m
    refine countP_congr fun r hr => ?_
    have hr' : r ≠ σ.nextPair := Nat.ne_of_lt (ht.lt_of_mem_pairRefs hr)
    rw [Switch.involves, Switch.involves, memberOf_link_of_ne σ src d a b key hr',
      memberOf_link_of_ne σ src d a b key hr']
  refine ⟨fun m => ?_, fun m => ?_⟩
  · have hcount := h.count m
    rw [pairs_link hne, Switch.pairsOf, hrefs, countP_cons, hold, hnew, hcount]
    simp only [Switch.owedBy, countP_nil, Bool.or_eq_true, beq_iff_eq]
    split_ifs <;> push_cast <;> omega
  · rw [pairs_link hne]
    have hlimit := h.limit m
    split_ifs with hm
    · rcases hm with rfl | rfl <;> omega
    · omega

theorem counts_of_tear (h : Tear c c') (ht : Tables c.owed c.ending c.switch)
    (hc : Counts c.owed c.switch) : Counts c'.owed c'.switch := by
  cases h with
  | move o e a σ mv =>
    refine hc.congr (same_move σ mv) fun m => ?_
    rcases σ.move_eq mv with h | ⟨s, t, es, -, h⟩ <;> simp only [h]
  | tick o e a σ => exact hc.congr (same_tick σ) fun _ => rfl
  | unlink o e a σ r h => exact hc.unlink ht h
  | settle => exact hc.settle
  | settlePush => exact hc.settle.congr (same_push _ _ _ _) fun _ => rfl
  | shut o e a σ s =>
    have htorn := torn_shut σ s
    have hpairs : (σ.shut s).pairs = σ.pairs := by rw [Switch.shut_eq]
    have hside : (σ.shut s).pairAt = σ.pairAt := by rw [Switch.shut_eq]
    refine hc.of_eq hpairs (pairs_shut σ s) (fun r _ i => ?_) fun x _ => ?_ <;>
      rw [Switch.memberOf, hside, htorn.member] <;> rfl
  | finish => exact hc
  | backoff o e a σ key now => exact hc.congr (same_backoff σ key now) fun _ => rfl

theorem counts_of_act (h : Act strict c c') (ht : Tables c.owed c.ending c.switch)
    (hc : Counts c.owed c.switch) :
    Counts c'.owed c'.switch := by
  cases h with
  | tear h => exact counts_of_tear h ht hc
  | enroll σ mac ip => exact Counts.enroll hc ht mac ip
  | strike => exact hc.of_eq rfl (fun _ => rfl) (fun _ _ _ => rfl) fun _ _ => rfl
  | greet σ m => exact (Counts.install hc ht m).congr (same_push _ _ _ _) fun _ => rfl
  | link σ src dst now d a b hsrc h => exact Counts.link hc ht h
  | add e a σ r i fd =>
    exact hc.congr (same_add σ fd _ _ _) fun _ => rfl
  | drop e a σ r i fd =>
    exact hc.congr (same_drop σ fd) fun _ => rfl
  | giveUp => exact hc
  | accept σ r i =>
    refine hc.congr (same_accept σ r i) fun m => ?_
    rw [Switch.accept, Switch.closeFD_eq]
    rfl
  | stats σ m tx rx =>
    refine hc.congr (same_stats σ m tx rx) fun m' => ?_
    rcases eq_or_ne m' m with rfl | hne <;> simp [Config.free, Switch.setMember, *]
  | retire σ s =>
    exact hc.congr (same_retire σ s) fun _ => rfl

end Change

/-! ## Numbers -/

/-- As long as the counter has not come round, pairs are numbered in the order they
are made, and one in the table is found by its number. -/
structure Numbered (σ : Switch) : Prop where
  next : σ.nextID = σ.nextPair
  id : ∀ r, r < σ.nextPair → (σ.pairAt r).id = r + 1
  byID : ∀ r, σ.InTable r → σ.byID (σ.pairAt r).id = some r

theorem Numbered.congr (h : Numbered σ) (hs : SameTables σ σ') : Numbered σ' where
  next := by
    rw [hs.nextID, hs.nextPair]
    exact h.next
  id r hr := by
    rw [hs.id]
    exact h.id r (hs.nextPair ▸ hr)
  byID r hr := by
    rw [hs.byID, hs.id]
    exact h.byID r ((hs.inTable r).mp hr)

section Number

variable {o : List (Nat × Fin 2)} {e : List Nat} {σ : Switch}

theorem Numbered.unlink (h : Numbered σ) (ht : Tables o e σ) (hr : σ.InTable r) :
    Numbered (σ.unlink r) where
  next := h.next
  id := h.id
  byID r' hr' := by
    have hold := Switch.inTable_of_unlink hr'
    have hne : r' ≠ r := by
      rintro rfl
      exact σ.not_inTable_unlink r' hr'
    change update σ.byID (σ.pairAt r).id none (σ.pairAt r').id = some r'
    rw [update_of_ne]
    · exact h.byID r' hold
    · rw [h.id r (ht.lt_of_inTable hr), h.id r' (ht.lt_of_inTable hold)]
      omega

theorem newID_eq (h : σ.nextID = σ.nextPair) (hlt : σ.nextPair + 1 < 2 ^ 32) :
    σ.newID = σ.nextPair + 1 := by
  rw [Switch.newID, h, Nat.mod_eq_of_lt hlt, if_neg (Nat.succ_ne_zero _)]

theorem Numbered.link (h : Numbered σ) (ht : Tables [] [] σ) (hlt : σ.nextPair + 1 < 2 ^ 32)
    (src d a b : Nat) (key : PairKey) :
    Numbered (σ.link src d a b key) where
  next := newID_eq h.next hlt
  id r hr := by
    rcases Nat.lt_succ_iff_lt_or_eq.mp hr with hr | rfl
    · rw [pairAt_link_of_ne σ src d a b key (Nat.ne_of_lt hr)]
      exact h.id r hr
    · rw [pairAt_link]
      exact newID_eq h.next hlt
  byID r hr := by
    change update σ.byID σ.newID (some σ.nextPair) _ = some r
    rcases eq_or_ne r σ.nextPair with rfl | hne
    · rw [pairAt_link, update_self]
    · rw [Switch.InTable, pairAt_link_of_ne σ src d a b key hne, pairOf_link] at hr
      split_ifs at hr with hkey
      · exact absurd (Option.some.inj hr).symm hne
      · have hin := ht.inTable hr
        have hlt' := ht.lt_of_inTable hin
        rw [pairAt_link_of_ne σ src d a b key hne, newID_eq h.next hlt, update_of_ne]
        · exact h.byID r hin
        · rw [h.id r hlt']
          omega

theorem numbered_of_tear (h : Tear c c') (ht : Tables c.owed c.ending c.switch)
    (hc : Numbered c.switch) : Numbered c'.switch := by
  cases h with
  | move o e a σ mv => exact hc.congr (same_move σ mv)
  | tick o e a σ => exact hc.congr (same_tick σ)
  | unlink o e a σ r h => exact hc.unlink ht h
  | settle o e a σ r i => exact hc.congr (same_settle σ r i)
  | settlePush o e a σ r i => exact hc.congr ((same_settle σ r i).trans (same_push _ _ _ _))
  | shut =>
    rw [Switch.shut_eq]
    exact { hc with }
  | finish => exact hc
  | backoff o e a σ key now => exact hc.congr (same_backoff σ key now)

theorem numbered_of_act (h : Act strict c c') (ht : Tables c.owed c.ending c.switch)
    (hc : c.switch.nextPair < 2 ^ 32 → Numbered c.switch) (hlt : c'.switch.nextPair < 2 ^ 32) :
    Numbered c'.switch := by
  cases h with
  | tear h => exact numbered_of_tear h ht (hc ((torn_of_tear h).nextPair ▸ hlt))
  | enroll | strike => exact { hc hlt with }
  | greet σ m =>
    exact Numbered.congr (σ := σ.install m) { hc hlt with } (same_push _ _ _ _)
  | link σ src dst now d a b =>
    exact Numbered.link (hc (Nat.lt_of_succ_lt hlt)) ht hlt src d a b _
  | add e a σ r i fd =>
    exact (hc hlt).congr (same_add σ fd _ _ _)
  | drop e a σ r i fd =>
    exact (hc hlt).congr (same_drop σ fd)
  | giveUp => exact hc hlt
  | accept σ r i =>
    have hs := same_accept σ r i
    exact (hc (hs.nextPair ▸ hlt)).congr hs
  | stats σ m tx rx =>
    exact (hc hlt).congr (same_stats σ m tx rx)
  | retire σ s =>
    exact (hc hlt).congr (same_retire σ s)

end Number

/-! ## Every run -/

/-- What every act keeps of the tables, the counts and the numbers. -/
structure Sound (c : Config) : Prop where
  tables : Tables c.owed c.ending c.switch
  counts : Counts c.owed c.switch
  numbered : c.switch.nextPair < 2 ^ 32 → Numbered c.switch

theorem sound_of_act (h : Act strict c c') (hc : Sound c) :
    Sound c' where
  tables := tables_of_act h hc.tables
  counts := counts_of_act h hc.tables hc.counts
  numbered := numbered_of_act h hc.tables hc.numbered

theorem sound_new : Sound (.free newPeering) where
  tables := tables_new
  counts := ⟨fun _ => rfl, fun _ => show (0 : Int) ≤ peerMaxPerVM by decide⟩
  numbered _ := ⟨rfl, nofun, nofun⟩

theorem sound_step (env : Env) (σ : Switch) (op : Op) (h : Sound (.free σ)) :
    Sound (.free (step env σ op)) :=
  (acts_step env False h.tables op False.elim).invariant (fun _ _ => sound_of_act) h

theorem sound_run (env : Env) (ops : List Op) : Sound (.free (run (step env) newPeering ops)) :=
  run_invariant (I := fun σ => Sound (.free σ)) (sound_step env) sound_new ops

def Switch.Registered (σ : Switch) (m : Nat) : Prop := σ.members (σ.memberAt m).mac = some m

/-- The invariant of the switch while its lock is free. -/
structure Consistent (σ : Switch) : Prop where
  byID_of_pairs : ∀ key r, σ.pairOf key = some r →
    (σ.pairAt r).key = key ∧ σ.byID (σ.pairAt r).id = some r
  pairs_of_byID : ∀ id r, σ.byID id = some r →
    (σ.pairAt r).id = id ∧ σ.pairOf (σ.pairAt r).key = some r
  sides : ∀ key r, σ.pairOf key = some r → σ.memberOf r 0 ≠ σ.memberOf r 1 ∧
    ∀ i, (σ.sessionAt ((σ.pairAt r).side i)).closed = false ∧ σ.Registered (σ.memberOf r i)
  count : ∀ m, (σ.memberAt m).pairs = (σ.pairsOf m : Int)
  limit : ∀ m, (σ.memberAt m).pairs ≤ peerMaxPerVM
  closed_free : ∀ s, (σ.sessionAt s).closed = true → ∀ key r, σ.pairOf key = some r →
    ∀ i, (σ.pairAt r).side i ≠ s
  unregistered_free : ∀ m, ¬ σ.Registered m → σ.pairsOf m = 0

theorem Sound.consistent {σ : Switch} (h : Sound (.free σ)) (hlt : σ.nextPair < 2 ^ 32) :
    Consistent σ := by
  have htables : Tables [] [] σ := h.tables
  have hopen : ∀ {key r}, σ.pairOf key = some r → ∀ i,
      (σ.sessionAt ((σ.pairAt r).side i)).closed = false := fun hr i =>
    (htables.pairSide _ (htables.inTable hr) i).resolve_right not_mem_nil
  have hreg : ∀ {key r}, σ.pairOf key = some r → ∀ i, σ.Registered (σ.memberOf r i) := fun hr i =>
    (htables.current _ _ (htables.openCurrent _ (hopen hr i))).1
  exact {
    byID_of_pairs := fun key r hr =>
      ⟨(htables.pairKey key r hr).2, (h.numbered hlt).byID r (htables.inTable hr)⟩
    pairs_of_byID := htables.byID
    sides := fun key r hr => ⟨htables.distinct r (htables.pairKey key r hr).1,
      fun i => ⟨hopen hr i, hreg hr i⟩⟩
    count := fun m => by simpa [Switch.owedBy, Config.free] using h.counts.count m
    limit := h.counts.limit
    closed_free := fun s hs key r hr i hside => by
      have hopen' := hopen hr i
      rw [hside, hs] at hopen'
      cases hopen'
    unregistered_free := fun m hm => by
      refine countP_eq_zero.mpr fun r hr => ?_
      obtain ⟨x, hx, rfl⟩ := mem_map.mp hr
      have hof : σ.pairOf x.1 = some x.2 := AList.mem_lookup_iff.mpr hx
      simp only [Switch.involves, Bool.or_eq_true, beq_iff_eq, not_or]
      exact ⟨fun h0 => hm (h0 ▸ hreg hof 0), fun h1 => hm (h1 ▸ hreg hof 1)⟩ }

/-- Whatever happens, and in whatever order, the switch is consistent whenever its
lock is free, in a run that makes fewer than `2 ^ 32 - 1` pairs. -/
theorem peer_switch_consistent (env : Env) (ops : List Op)
    (hlt : (run (step env) newPeering ops).nextPair < 2 ^ 32 - 1) :
    Consistent (run (step env) newPeering ops) :=
  (sound_run env ops).consistent (by omega)

/-- However removals and endings call each other through full queues, the calls are no
deeper than there are sessions: more depth gives the same state. -/
theorem teardown_depth (env : Env) (ops : List Op) (extra : Nat) :
    let σ := run (step env) newPeering ops
    (∀ s, σ.endSession env s = endSessionLocked env (σ.nextSession + 1 + extra) s σ) ∧
      ∀ r failed, σ.removePair env r failed =
        σ.removePairLocked (endSessionLocked env (σ.nextSession + 1 + extra)) env r failed := by
  intro σ
  have hmade : σ.Made := (sound_run env ops).tables.made
  refine ⟨fun s => endSession_eq env hmade s extra, fun r failed => ?_⟩
  refine removePairLocked_congr env (tears_endSessionLocked env _) (fun s σ' htorn => ?_) r failed
  rw [← htorn.nextSession]
  exact endSession_eq env (htorn.made hmade) s extra

/-- After `Unregister` the member is not in the table, has no session, and is on no side
of a pair. -/
theorem unregister_disconnects (env : Env) (ops : List Op) (m : Nat) :
    let σ := run (step env) newPeering (ops ++ [.unregister m])
    ¬ σ.Registered m ∧ (σ.memberAt m).session = none ∧
      ∀ key r, σ.pairOf key = some r → ∀ i, σ.memberOf r i ≠ m := by
  intro σ
  have h : Tables [] [] σ := (sound_run env _).tables
  have hgone : ¬ σ.Registered m := by
    intro hreg
    have hlt := (h.registered _ m hreg).1
    simp only [σ, Switch.Registered, run_append, run_cons, run_nil, step] at hreg hlt
    split_ifs at hreg hlt with hm
    · simp only [Switch.unregister, Switch.strike] at hreg
      split_ifs at hreg with hin
      · simp at hreg
      · exact hin hreg
    · exact hm hlt
  refine ⟨hgone, ?_, fun key r hr i hi => ?_⟩
  · cases hs : (σ.memberAt m).session with
    | none => rfl
    | some s => exact absurd (h.current m s hs).1 hgone
  · have hopen := (h.pairSide r (h.inTable hr) i).resolve_right not_mem_nil
    exact hgone (hi ▸ (h.current _ _ (h.openCurrent _ hopen)).1)

/-- The open sessions are those that members have, each that of its own member, which is
registered: a member has at most one. -/
theorem sessions_current (env : Env) (ops : List Op) (m s : Nat) :
    let σ := run (step env) newPeering ops
    ((σ.memberAt m).session = some s ↔
        (σ.sessionAt s).member = m ∧ (σ.sessionAt s).closed = false) ∧
      ((σ.memberAt m).session = some s → σ.Registered m) := by
  intro σ
  have h : Tables [] [] σ := (sound_run env ops).tables
  refine ⟨⟨fun hs => (h.current m s hs).2, ?_⟩, fun hs => (h.current m s hs).1⟩
  rintro ⟨rfl, hopen⟩
  exact h.openCurrent s hopen

/-- Tables walked in the order they are in, and writers that only move between two
operations. -/
def plainEnv : Env := ⟨fun _ l => l, fun _ l => .refl l, fun _ => []⟩

def helloOf (mac : MAC) : Message := { kind := .hello, value := peerFeatures, mac }

/-- Two machines with sessions, and a frame from the first to the second. -/
def pairUp : List Op :=
  [.register 1 1, .register 2 2, .session 0 (helloOf 1), .session 1 (helloOf 2),
    .observe 0 2 0 true (fun _ => true) 0]

theorem peer_switch_consistent_pairUp :
    (run (step plainEnv) newPeering pairUp).pairRefs = [0] ∧
      Consistent (run (step plainEnv) newPeering pairUp) :=
  ⟨by decide +kernel, peer_switch_consistent plainEnv pairUp (by decide +kernel)⟩

end Jerboa.Peer
