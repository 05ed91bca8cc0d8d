import Jerboa.Tfs.Release

/-!
# Who has which block

Every extent, every operation under way and every range that waits for its
release has storage of its own.  The log agrees with the extents in memory but
for the log writes under way, so no two extents in a log share a block,
whatever part of it is read.
-/

namespace Jerboa.Tfs.Release

open List Lib

def Op.owned : Op → List (Nat × Range)
  | .add id r _ => [(id, r)]
  | .grow id _ new => [(id, new)]
  | .remove .. | .trim .. => []

def Op.extents (l : List (Nat × Range)) : Op → List (Nat × Range)
  | .add id r _ => l ++ [(id, r)]
  | .grow id old new => l.map fun e => if e.1 = id then (id, ⟨old.start, new.stop⟩) else e
  | .remove id _ => l.filter (·.1 ≠ id)
  | .trim id old keep => l.map fun e => if e.1 = id then (id, .ofLength old.start keep) else e

def Op.removed : Op → List Range
  | .add .. | .grow .. => []
  | .remove _ r => [r]
  | .trim _ old keep => [⟨old.start + keep, old.stop⟩]

theorem Volume.finish_true (s : Volume) (op : Op) :
    s.finish true op =
      { s with extents := op.extents s.extents, removed := s.removed ++ op.removed } := by
  cases op <;> simp [finish, Op.extents, Op.removed]

def Op.Fits (l : List (Nat × Range)) (bound : Nat) : Op → Prop
  | .add id r _ => id < bound ∧ id ∉ l.map Prod.fst ∧ r.start ≤ r.stop
  | .grow id old new => (id, old) ∈ l ∧ old.start ≤ old.stop ∧ new.start = old.stop ∧
      new.start ≤ new.stop
  | .remove id r => (id, r) ∈ l
  | .trim id old keep => (id, old) ∈ l ∧ old.start + keep ≤ old.stop

section

variable {l : List (Nat × Range)} {id : Nat} {r : Range}

theorem perm_of_mem (hnodup : (l.map Prod.fst).Nodup) (h : (id, r) ∈ l) :
    l.Perm ((id, r) :: l.filter (·.1 ≠ id)) := by
  induction l with
  | nil => cases h
  | cons x l ih =>
    rw [map_cons, nodup_cons] at hnodup
    rcases mem_cons.mp h with rfl | hmem
    · have hrest : l.filter (·.1 ≠ id) = l := by
        refine filter_eq_self.mpr fun y hy => decide_eq_true fun heq => ?_
        exact hnodup.1 (mem_map.mpr ⟨y, hy, heq⟩)
      rw [filter_cons_of_neg (by simp), hrest]
    · have hne : x.1 ≠ id := by
        rintro rfl
        exact hnodup.1 (mem_map.mpr ⟨_, hmem, rfl⟩)
      rw [filter_cons_of_pos (by simpa using hne)]
      exact ((ih hnodup.2 hmem).cons x).trans (.swap _ _ _)

theorem perm_replace (hnodup : (l.map Prod.fst).Nodup) (h : (id, r) ∈ l) (r' : Range) :
    (l.map fun e => if e.1 = id then (id, r') else e).Perm
      ((id, r') :: l.filter (·.1 ≠ id)) := by
  have hrest : ((l.filter (·.1 ≠ id)).map fun e => if e.1 = id then (id, r') else e) =
      l.filter (·.1 ≠ id) := by
    conv_rhs => rw [← map_id (l.filter (·.1 ≠ id))]
    refine map_congr_left fun e he => ?_
    rw [if_neg (by simpa using (mem_filter.mp he).2)]
    rfl
  have hmap := (perm_of_mem hnodup h).map fun e => if e.1 = id then (id, r') else e
  rwa [map_cons, if_pos rfl, hrest] at hmap

end

/-- The storage of the extents, with that of the operations under way. -/
def Volume.placed (s : Volume) (d : List (Nat × Op)) : List (Nat × Range) :=
  s.extents ++ (s.ops ++ d).flatMap fun p => p.2.owned

def Volume.spare (s : Volume) : List Range :=
  s.held ++ s.removed ++ s.deferred.map Prod.snd ++ s.releasing.map Prod.snd

def Volume.logged (s : Volume) : List (Nat × Range) := s.updates.foldl Update.apply s.base

structure Placed (s : Volume) (d : List (Nat × Op)) : Prop where
  distinct : (s.extents.map Prod.fst).Nodup
  bound : ∀ x ∈ s.extents, x.1 < s.nextId
  ordered : ∀ x ∈ s.extents, x.2.start ≤ x.2.stop
  heldOrdered : ∀ r ∈ s.held, r.start ≤ r.stop
  fits : ∀ p ∈ s.ops ++ d, p.2.Fits s.extents s.nextId
  single : ((s.ops ++ d).map fun p => p.2.id).Nodup
  owned : s.storage.Owned ((s.placed d).map Prod.snd ++ s.spare)
  length : s.updates.length = s.log.writes
  live : ∀ x ∈ s.logged, (∃ p ∈ s.ops ++ d, p.2.update = .set x.1 x.2) ∨
    x ∈ s.extents ∧ ∀ p ∈ s.ops ++ d, p.2.id ≠ x.1
  liveDistinct : (s.logged.map Prod.fst).Nodup

/-! ## An operation goes on -/

section

variable {l : List (Nat × Range)} {top : Nat} {op : Op}

theorem Op.Fits.cover_eq (h : op.Fits l top) (hnodup : (l.map Prod.fst).Nodup) (b : Nat) :
    cover b ((op.extents l).map Prod.snd) + cover b op.removed =
      cover b (l.map Prod.snd) + cover b (op.owned.map Prod.snd) := by
  cases op with
  | add => simp [Op.extents, Op.removed, Op.owned]
  | grow id old new =>
    obtain ⟨hmem, hold, hstart, hnew⟩ := h
    have hafter := cover_perm (b := b) ((perm_replace hnodup hmem ⟨old.start, new.stop⟩).map
      Prod.snd)
    have hbefore := cover_perm (b := b) ((perm_of_mem hnodup hmem).map Prod.snd)
    have hjoin := cover_join b ((l.filter (·.1 ≠ id)).map Prod.snd)
      (r := ⟨old.start, new.stop⟩) (m := old.stop) hold (hstart ▸ hnew)
    simp only [map_cons] at hafter hbefore
    simp only [Op.extents, Op.removed, Op.owned, map_cons, map_nil, cover_nil]
    rw [hafter, hbefore, hjoin]
    simp only [cover_cons, cover_nil, Range.mem_def]
    rw [hstart]
    omega
  | remove =>
    have hbefore := cover_perm (b := b) ((perm_of_mem hnodup h).map Prod.snd)
    simp only [Op.extents, Op.removed, Op.owned, map_nil]
    rw [hbefore]
    simp
  | trim id old keep =>
    obtain ⟨hmem, hkeep⟩ := h
    have hafter := cover_perm (b := b) ((perm_replace hnodup hmem (.ofLength old.start keep)).map
      Prod.snd)
    have hbefore := cover_perm (b := b) ((perm_of_mem hnodup hmem).map Prod.snd)
    have hjoin := cover_join b ((l.filter (·.1 ≠ id)).map Prod.snd) (r := old)
      (m := old.start + keep) (Nat.le_add_right _ _) hkeep
    simp only [map_cons] at hafter hbefore
    simp only [Op.extents, Op.removed, Op.owned, map_nil, cover_nil]
    rw [hafter, hbefore, hjoin]
    simp only [cover_cons, cover_nil, Range.ofLength]
    omega

theorem Op.mem_extents (op : Op) {x : Nat × Range} (hne : x.1 ≠ op.id) :
    x ∈ op.extents l ↔ x ∈ l := by
  have hreplace : ∀ {id : Nat} {r : Range}, x.1 ≠ id →
      ((x ∈ l.map fun e => if e.1 = id then (id, r) else e) ↔ x ∈ l) := by
    intro id r hne
    rw [mem_map]
    constructor
    · rintro ⟨e, he, heq⟩
      split_ifs at heq with hid
      · exact absurd (congrArg Prod.fst heq).symm hne
      · exact heq ▸ he
    · intro hx
      exact ⟨x, hx, if_neg hne⟩
  cases op with
  | add =>
    simp only [Op.extents, mem_append, mem_singleton]
    constructor
    · rintro (hx | rfl)
      · exact hx
      · exact absurd rfl hne
    · exact .inl
  | grow | trim => exact hreplace hne
  | remove =>
    simp only [Op.extents, mem_filter, decide_eq_true_eq]
    exact ⟨And.left, fun hx => ⟨hx, hne⟩⟩

theorem Op.Fits.distinct (h : op.Fits l top) (hnodup : (l.map Prod.fst).Nodup) :
    ((op.extents l).map Prod.fst).Nodup := by
  have hreplace : ∀ {id : Nat} {r r' : Range}, (id, r) ∈ l →
      ((l.map fun e => if e.1 = id then (id, r') else e).map Prod.fst).Nodup := by
    intro id r r' hmem
    have hbefore := (perm_of_mem hnodup hmem).map Prod.fst
    have hafter := (perm_replace hnodup hmem r').map Prod.fst
    rw [map_cons] at hbefore hafter
    exact (hafter.trans hbefore.symm).nodup_iff.mpr hnodup
  cases op with
  | add id =>
    simp only [Op.extents, map_append, map_cons, map_nil]
    exact nodup_append.mpr ⟨hnodup, nodup_singleton id, by
      rintro x hx y hy rfl
      exact h.2.1 (mem_singleton.mp hy ▸ hx)⟩
  | grow | trim => exact hreplace h.1
  | remove => exact hnodup.sublist (filter_sublist.map Prod.fst)

theorem Op.id_of_update {id : Nat} {r : Range} (h : op.update = .set id r) : id = op.id := by
  cases op <;> cases h <;> rfl

section

variable (h : op.Fits l top)
include h

theorem Op.Fits.mem_extents_self {x : Nat × Range}
    (hx : op.update = .set x.1 x.2) : x ∈ op.extents l := by
  have hreplace : ∀ {id : Nat} {r r' : Range}, (id, r) ∈ l →
      (id, r') ∈ l.map fun e => if e.1 = id then (id, r') else e :=
    fun hmem => mem_map.mpr ⟨_, hmem, if_pos rfl⟩
  obtain ⟨i, q⟩ := x
  cases op with
  | add =>
    cases hx
    exact mem_append_right _ mem_cons_self
  | grow | trim =>
    cases hx
    exact hreplace h.1
  | remove => cases hx

theorem Op.Fits.ordered (hordered : ∀ x ∈ l, x.2.start ≤ x.2.stop) :
    ∀ x ∈ op.extents l, x.2.start ≤ x.2.stop := by
  have hreplace : ∀ {id : Nat} {r : Range}, r.start ≤ r.stop →
      ∀ x ∈ l.map fun e => if e.1 = id then (id, r) else e, x.2.start ≤ x.2.stop := by
    intro id r hle x hx
    obtain ⟨e, he, rfl⟩ := mem_map.mp hx
    split_ifs
    · exact hle
    · exact hordered e he
  cases op with
  | add =>
    intro x hx
    rcases mem_append.mp hx with hx | hx
    · exact hordered x hx
    · rw [mem_singleton.mp hx]
      exact h.2.2
  | grow =>
    obtain ⟨-, hold, hstart, hnew⟩ := h
    exact hreplace (Nat.le_trans hold (hstart ▸ hnew))
  | remove => exact fun x hx => hordered x (mem_of_mem_filter hx)
  | trim => exact hreplace (Nat.le_add_right _ _)

theorem Op.Fits.bound (hbound : ∀ x ∈ l, x.1 < top) :
    ∀ x ∈ op.extents l, x.1 < top := by
  have hreplace : ∀ {id : Nat} {r r' : Range}, (id, r) ∈ l →
      ∀ x ∈ l.map fun e => if e.1 = id then (id, r') else e, x.1 < top := by
    intro id r r' hmem x hx
    obtain ⟨e, he, rfl⟩ := mem_map.mp hx
    split_ifs
    · exact hbound (id, r) hmem
    · exact hbound e he
  cases op with
  | add =>
    intro x hx
    rcases mem_append.mp hx with hx | hx
    · exact hbound x hx
    · rw [mem_singleton.mp hx]
      exact h.1
  | grow | trim => exact hreplace h.1
  | remove => exact fun x hx => hbound x (mem_of_mem_filter hx)

theorem Op.Fits.extents {op' : Op} (hne : op.id ≠ op'.id) :
    op.Fits (op'.extents l) top := by
  have hmem : ∀ {r : Range}, (op.id, r) ∈ l → (op.id, r) ∈ op'.extents l :=
    fun hr => (op'.mem_extents hne).mpr hr
  cases op with
  | add =>
    refine ⟨h.1, fun hid => ?_, h.2.2⟩
    obtain ⟨x, hx, rfl⟩ := mem_map.mp hid
    exact h.2.1 (mem_map_of_mem ((op'.mem_extents hne).mp hx))
  | grow | trim => exact ⟨hmem h.1, h.2⟩
  | remove => exact hmem h

end

end

namespace Placed

variable {s : Volume} {d : List (Nat × Op)} {p : Nat × Op}

theorem finish (h : Placed s (p :: d)) : Placed (s.finish true p.2) d := by
  have hfits : p.2.Fits s.extents s.nextId := h.fits p (by simp)
  have hothers : ∀ q ∈ s.ops ++ d, q.2.id ≠ p.2.id := by
    intro q hq heq
    have hsingle := (perm_middle.map fun p : Nat × Op => p.2.id).nodup_iff.mp h.single
    rw [map_cons, nodup_cons] at hsingle
    exact hsingle.1 (mem_map.mpr ⟨q, hq, heq⟩)
  have hmem : ∀ q ∈ s.ops ++ d, q ∈ s.ops ++ p :: d := by
    intro q hq
    rcases mem_append.mp hq with hq | hq
    · exact mem_append_left _ hq
    · exact mem_append_right _ (mem_cons_of_mem p hq)
  rw [Volume.finish_true]
  refine ⟨hfits.distinct h.distinct, hfits.bound h.bound, hfits.ordered h.ordered, h.heldOrdered,
    fun q hq => (h.fits q (hmem q hq)).extents (hothers q hq), ?_, ?_, h.length, ?_, h.liveDistinct⟩
  · have hsub : (s.ops ++ d).Sublist (s.ops ++ p :: d) :=
      (List.Sublist.refl _).append (sublist_cons_self p d)
    exact h.single.sublist (hsub.map _)
  · refine h.owned.le fun b => Nat.le_of_eq ?_
    have hcover := hfits.cover_eq h.distinct b
    simp only [Volume.placed, Volume.spare, map_append, flatMap_append,
      flatMap_cons, cover_append] at hcover ⊢
    omega
  · intro x hx
    rcases h.live x hx with ⟨q, hq, hupdate⟩ | ⟨hext, hidle⟩
    · rcases mem_cons.mp (perm_middle.mem_iff.mp hq) with rfl | hq'
      · refine .inr ⟨hfits.mem_extents_self hupdate, fun q' hq' => ?_⟩
        rw [Op.id_of_update hupdate]
        exact hothers q' hq'
      · exact .inl ⟨q, hq', hupdate⟩
    · refine .inr ⟨(p.2.mem_extents fun heq => hidle p (by simp) heq.symm).mpr hext, ?_⟩
      exact fun q hq => hidle q (hmem q hq)

theorem perm {ops ops' d' : List (Nat × Op)} (h : Placed { s with ops := ops } d)
    (hperm : (ops ++ d).Perm (ops' ++ d')) : Placed { s with ops := ops' } d' := by
  refine { h with fits := ?_, single := ?_, owned := ?_, live := ?_ }
  · exact fun q hq => h.fits q (hperm.mem_iff.mpr hq)
  · exact (hperm.map _).nodup_iff.mp h.single
  · refine h.owned.perm (List.Perm.append_right _ (List.Perm.map _ ?_))
    exact (hperm.flatMap_right _).append_left _
  · intro x hx
    rcases h.live x hx with ⟨q, hq, hupdate⟩ | ⟨hext, hidle⟩
    · exact .inl ⟨q, hperm.mem_iff.mp hq, hupdate⟩
    · exact .inr ⟨hext, fun q hq => hidle q (hperm.mem_iff.mpr hq)⟩

theorem foldl_finish (h : Placed s d) (happlied : ∀ p ∈ d, p.1 ∈ s.log.applied) :
    Placed (d.foldl (fun s p => s.finish (p.1 ∈ s.log.applied) p.2) s) [] := by
  induction d generalizing s with
  | nil => exact h
  | cons p d ih =>
    rw [foldl_cons, decide_eq_true (happlied p mem_cons_self)]
    refine ih h.finish fun q hq => ?_
    rw [Volume.finish_true]
    exact happlied q (mem_cons_of_mem p hq)

theorem settle (h : Placed s []) (hfailed : s.log.failedWrites = []) : Placed s.settle [] := by
  have hself : Placed { s with ops := s.ops } [] := h
  refine foldl_finish (hself.perm ?_) ?_
  · rw [append_nil]
    exact (filter_append_perm _ s.ops).symm.trans perm_append_comm
  · intro p hp
    have hreturned := (mem_filter.mp hp).2
    simpa [Volume.returned, hfailed] using hreturned

end Placed

namespace Volume

theorem releaseSchedule_eq (s : Volume) :
    s.releaseSchedule = { s with scheduled := s.scheduled || !s.active } := by
  obtain ⟨_, _, _, _, _, _, _, _, _, _, active, scheduled, _⟩ := s
  cases active <;> cases scheduled <;> rfl

theorem releaseDefer_eq (s : Volume) :
    s.releaseDefer = { s with timer := s.timer || !(s.scheduled || s.active) } := by
  obtain ⟨_, _, _, _, _, _, _, _, _, _, active, scheduled, timer, _⟩ := s
  cases active <;> cases scheduled <;> cases timer <;> rfl

theorem releaseStorage_eq (s : Volume) {r : Range} (hr : r.span ≠ 0) :
    s.releaseStorage r =
      { s with
        deferred := s.deferred ++ [(s.releases.length, r)]
        releases := s.releases ++ [(r, s.log.writes)]
        timer := s.timer || !(s.scheduled || s.active) } := by
  rw [releaseStorage, if_neg hr, releaseDefer_eq]

end Volume

namespace Placed

variable {s : Volume} {d : List (Nat × Op)} {r : Range} {op : Op}

theorem releaseStorage (h : Placed s [])
    (howned : s.storage.Owned (r :: ((s.placed []).map Prod.snd ++ s.spare))) :
    Placed (s.releaseStorage r) [] := by
  by_cases hr : r.span = 0
  · rwa [Volume.releaseStorage, if_pos hr]
  · rw [Volume.releaseStorage_eq _ hr]
    refine { h with owned := howned.le fun b => ?_ }
    simp only [Volume.placed, Volume.spare, map_append, map_cons, map_nil, cover_append,
      cover_cons, cover_nil]
    omega

theorem cover_logged (h : Placed s d) (b : Nat) : cover b (s.logged.map Prod.snd) ≤ 1 := by
  -- an extent in the log has its blocks from its extent in memory or from an operation
  have hplaced : ∀ x ∈ s.logged, b ∈ x.2 → ∃ y ∈ s.placed d, y.1 = x.1 ∧ b ∈ y.2 := by
    intro x hx hb
    rcases h.live x hx with ⟨p, hp, hupdate⟩ | ⟨hext, -⟩
    · have hfits := h.fits p hp
      have hop : ∀ y ∈ p.2.owned, y ∈ s.placed d := fun y hy =>
        mem_append_right _ (mem_flatMap.mpr ⟨p, hp, hy⟩)
      obtain ⟨n, op⟩ := p
      obtain ⟨id, r⟩ := x
      cases op with
      | add =>
        cases hupdate
        exact ⟨_, hop _ mem_cons_self, rfl, hb⟩
      | grow i old =>
        cases hupdate
        obtain ⟨hmem, -, hstart, -⟩ := hfits
        by_cases hlt : b < old.stop
        · exact ⟨_, mem_append_left _ hmem, rfl, hb.1, hlt⟩
        · exact ⟨_, hop _ mem_cons_self, rfl, hstart ▸ Nat.not_lt.mp hlt, hb.2⟩
      | remove => cases hupdate
      | trim =>
        cases hupdate
        obtain ⟨hmem, hkeep⟩ := hfits
        exact ⟨_, mem_append_left _ hmem, rfl, hb.1, Nat.lt_of_lt_of_le hb.2 hkeep⟩
    · exact ⟨x, mem_append_left _ hext, rfl, hb⟩
  refine cover_le_one h.liveDistinct fun x hx y hy hbx hby => ?_
  by_contra hne
  obtain ⟨x', hx', hidx, hbx'⟩ := hplaced x hx hbx
  obtain ⟨y', hy', hidy, hby'⟩ := hplaced y hy hby
  have htwo := two_le_cover hx' hy' (by rwa [hidx, hidy]) hbx' hby'
  have hle := h.owned b
  have hbool := Bool.toNat_le (s.storage.used b)
  rw [cover_append] at hle
  omega

end Placed

/-! ## Log writes -/

theorem Update.distinct_apply {l : List (Nat × Range)} (h : (l.map Prod.fst).Nodup) (u : Update) :
    ((u.apply l).map Prod.fst).Nodup := by
  have hfilter : ∀ id : Nat, ((l.filter (·.1 ≠ id)).map Prod.fst).Nodup :=
    fun id => h.sublist (filter_sublist.map Prod.fst)
  cases u with
  | set id =>
    refine nodup_cons.mpr ⟨fun hid => ?_, hfilter id⟩
    obtain ⟨x, hx, heq⟩ := mem_map.mp hid
    exact of_decide_eq_true (mem_filter.mp hx).2 heq
  | drop id => exact hfilter id
  | other => exact h

/-- The operation can call `filesystem_write_eav`: it fits, no other one is
under way on its extent, and it has its storage. -/
structure Ready (s : Volume) (op : Op) : Prop where
  placed : Placed s []
  fits : op.Fits s.extents s.nextId
  idle : ∀ p ∈ s.ops, p.2.id ≠ op.id
  owned : s.storage.Owned (op.owned.map Prod.snd ++ ((s.placed []).map Prod.snd ++ s.spare))

namespace Ready

variable {s : Volume} {op : Op}

theorem refused (h : Ready s op) : Placed (s.finish false op) [] := by
  have hplaced := h.placed
  have howned := h.owned
  cases op with
  | add id r lost =>
    cases lost with
    | true => exact hplaced
    | false => exact hplaced.releaseStorage howned
  | grow => exact { hplaced with owned := howned.free }
  | remove | trim => exact hplaced

theorem staged (h : Ready s op) {log : Tlog.Sys} (hwrites : log.writes = s.log.writes + 1)
    (n : Nat) :
    Placed { s with
      log := log
      updates := s.updates ++ [op.update]
      ops := s.ops ++ [(n, op)] } [] := by
  have hplaced := h.placed
  have hlogged : ∀ x ∈ op.update.apply s.logged, op.update = .set x.1 x.2 ∨
      x ∈ s.logged ∧ x.1 ≠ op.id := by
    intro x hx
    cases op with
    | remove =>
      obtain ⟨hmem, hne⟩ := mem_filter.mp hx
      exact .inr ⟨hmem, of_decide_eq_true hne⟩
    | add | grow | trim =>
      rcases mem_cons.mp hx with rfl | hx
      · exact .inl rfl
      · obtain ⟨hmem, hne⟩ := mem_filter.mp hx
        exact .inr ⟨hmem, of_decide_eq_true hne⟩
  constructor
  · exact hplaced.distinct
  · exact hplaced.bound
  · exact hplaced.ordered
  · exact hplaced.heldOrdered
  · intro p hp
    rw [append_nil] at hp
    rcases mem_append.mp hp with hp | hp
    · exact hplaced.fits p (mem_append_left _ hp)
    · rw [mem_singleton.mp hp]
      exact h.fits
  · have hsingle := hplaced.single
    rw [append_nil] at hsingle ⊢
    rw [map_append, nodup_append]
    refine ⟨hsingle, nodup_singleton _, ?_⟩
    intro i hi j hj
    obtain ⟨p, hp, rfl⟩ := mem_map.mp hi
    rw [map_cons, map_nil, mem_singleton] at hj
    exact hj ▸ h.idle p hp
  · refine h.owned.le fun b => Nat.le_of_eq ?_
    simp only [Volume.placed, Volume.spare, append_nil, flatMap_append,
      flatMap_cons, flatMap_nil, map_append, cover_append]
    omega
  · simp [hplaced.length, hwrites]
  · intro x hx
    rw [Volume.logged, foldl_append] at hx
    rcases hlogged x hx with hupdate | ⟨hmem, hne⟩
    · exact .inl ⟨(n, op), by simp, hupdate⟩
    · rcases hplaced.live x hmem with ⟨p, hp, hupdate⟩ | ⟨hext, hidle⟩
      · rw [append_nil] at hp
        exact .inl ⟨p, by simp [hp], hupdate⟩
      · refine .inr ⟨hext, fun p hp => ?_⟩
        rw [append_nil] at hp hidle
        rcases mem_append.mp hp with hp | hp
        · exact hidle p hp
        · rw [mem_singleton.mp hp]
          exact hne.symm
  · rw [Volume.logged, foldl_append]
    exact op.update.distinct_apply hplaced.liveDistinct

end Ready

end Jerboa.Tfs.Release
