import Jerboa.Tfs.Placement

/-!
# When storage is used again

Along every run whose steps meet the condition, a block that was given to
`filesystem_release_storage` is free only after a device flush has succeeded that was
issued after the release, when the updates that were staged before were on storage in the
log in use.  A
release is freed once, and no two extents in a log share a block.
-/

namespace Jerboa.Tfs.Release

open List Lib Lib.Run

def Volume.Idle (s : Volume) (id : Nat) : Prop := ∀ p ∈ s.ops, p.2.id ≠ id
deriving Decidable

/-- The condition on a step: the log's own, and that the log writes of two
operations on one extent do not overlap. -/
def Calm (s : Volume) : Volume.Action → Prop
  | .log a => Tlog.Calm s.log a
  | .add _ _ e e' space => Tlog.Calm s.log (.write e e' space)
  | .grow id _ e e' space | .remove id e e' space | .trim id _ e e' space =>
    s.Idle id ∧ Tlog.Calm s.log (.write e e' space)
  | .start space => s.scheduled = true → s.active = false → s.deferred.isEmpty = false →
      Tlog.Calm s.log (.flush space)
  | .allocate _ | .discard _ | .release _ | .wait | .timer | .logged | .sync | .flushed _ _ => True

instance (s : Volume) (a : Volume.Action) : Decidable (Calm s a) := by
  cases a <;> unfold Calm <;> infer_instance

/-- The flush was issued after the release of that number, and the updates staged before the
release were then on storage. -/
def Flush.Covers (f : Flush) (i : Nat) (r : Range × Nat) : Prop :=
  i < f.releases ∧ ∀ n < r.2, n ∈ f.written

instance (f : Flush) (i : Nat) (r : Range × Nat) : Decidable (f.Covers i r) :=
  inferInstanceAs (Decidable (_ ∧ ∀ n < r.2, _))

def Volume.Durable (s : Volume) (i : Nat) (r : Range × Nat) : Prop := ∃ f ∈ s.stable, f.Covers i r
deriving Decidable

/-- The range can be handed out: the releases of its blocks are durable. -/
def Volume.MayReuse (s : Volume) (q : Range) : Prop :=
  ∀ i < s.releases.length, ∀ r ∈ s.releases[i]?, r.1.Meets q → s.Durable i r

instance (s : Volume) (q : Range) : Decidable (s.MayReuse q) :=
  inferInstanceAs (Decidable (∀ i < s.releases.length, _))

/-! ## The invariant of the release cycle -/

structure Cycled (s : Volume) : Prop where
  numbers : ((s.deferred ++ s.releasing).map Prod.fst ++ s.freed).Perm
    (List.range s.releases.length)
  pending : ∀ x ∈ s.deferred ++ s.releasing, ∃ n, s.releases[x.1]? = some (x.2, n)
  staged : ∀ r ∈ s.releases, r.2 ≤ s.log.writes
  freed : ∀ i ∈ s.freed, ∀ r ∈ s.releases[i]?, s.Durable i r
  idle : s.active = false → s.releasing = []
  one : s.cycle.toList.length + (s.flushes.filter Flush.release).length = s.active.toNat
  cycle : ∀ c ∈ s.cycle, c < s.log.calls.length ∧ ∀ x ∈ s.releasing, ∀ r ∈ s.releases[x.1]?,
    r.2 ≤ s.log.calls.getD c 0
  flushes : ∀ f ∈ s.flushes, f.release = true → ∀ x ∈ s.releasing, ∀ r ∈ s.releases[x.1]?,
    f.Covers x.1 r

namespace Cycled

variable {s : Volume} {r : Range}

theorem lt_length (h : Cycled s) {x : Nat × Range} (hx : x ∈ s.deferred ++ s.releasing) :
    x.1 < s.releases.length := by
  obtain ⟨n, hn⟩ := h.pending x hx
  exact (List.getElem?_eq_some_iff.mp hn).1

theorem releaseStorage (h : Cycled s) (r : Range) : Cycled (s.releaseStorage r) := by
  by_cases hr : r.span = 0
  · rwa [Volume.releaseStorage, if_pos hr]
  rw [Volume.releaseStorage_eq _ hr]
  have hold : ∀ x ∈ s.deferred ++ s.releasing,
      (s.releases ++ [(r, s.log.writes)])[x.1]? = s.releases[x.1]? :=
    fun x hx => getElem?_append_left (h.lt_length hx)
  have hreleasing : ∀ x ∈ s.releasing,
      (s.releases ++ [(r, s.log.writes)])[x.1]? = s.releases[x.1]? :=
    fun x hx => hold x (mem_append_right _ hx)
  constructor
  · simp only [map_append, map_cons, map_nil, append_assoc,
      length_append, length_cons, length_nil, Nat.zero_add, range_succ]
    have hnumbers := h.numbers
    simp only [map_append, append_assoc] at hnumbers
    refine List.Perm.trans ?_ (perm_append_singleton _ _).symm
    exact perm_middle.trans (hnumbers.cons _)
  · intro x hx
    rcases mem_append.mp hx with hx | hx
    · rcases mem_append.mp hx with hx | hx
      · obtain ⟨n, hn⟩ := h.pending x (mem_append_left _ hx)
        exact ⟨n, (hold x (mem_append_left _ hx)).trans hn⟩
      · rw [mem_singleton.mp hx]
        exact ⟨s.log.writes, by simp⟩
    · obtain ⟨n, hn⟩ := h.pending x (mem_append_right _ hx)
      exact ⟨n, (hreleasing x hx).trans hn⟩
  · intro q hq
    rcases mem_append.mp hq with hq | hq
    · exact h.staged q hq
    · exact Nat.le_of_eq (congrArg Prod.snd (mem_singleton.mp hq))
  · intro i hi q hq
    have hlt : i < s.releases.length := by
      have hmem := h.numbers.mem_iff.mp (mem_append_right _ hi)
      exact mem_range.mp hmem
    rw [getElem?_append_left hlt] at hq
    exact h.freed i hi q hq
  · exact h.idle
  · exact h.one
  · intro c hc
    refine ⟨(h.cycle c hc).1, fun x hx q hq => ?_⟩
    rw [hreleasing x hx] at hq
    exact (h.cycle c hc).2 x hx q hq
  · intro f hf hrel x hx q hq
    rw [hreleasing x hx] at hq
    exact h.flushes f hf hrel x hx q hq

theorem advance (h : Cycled s) (a : Tlog.Sys.Action) : Cycled { s with log := s.log.step a } := by
  have hwrites : s.log.writes ≤ (s.log.step a).writes := by
    rcases s.log.step_counts a with heq | ⟨-, heq⟩ | ⟨-, heq⟩
    · exact Nat.le_of_eq (congrArg Prod.fst heq).symm
    · exact Nat.le_trans (Nat.le_succ _) (Nat.le_of_eq (congrArg Prod.fst heq).symm)
    · exact Nat.le_of_eq (congrArg Prod.fst heq).symm
  have hcalls : ∃ new, (s.log.step a).calls = s.log.calls ++ new := by
    rcases s.log.step_counts a with heq | ⟨-, heq⟩ | ⟨-, heq⟩
    · exact ⟨[], (congrArg Prod.snd heq).trans (append_nil _).symm⟩
    · exact ⟨[], (congrArg Prod.snd heq).trans (append_nil _).symm⟩
    · exact ⟨_, congrArg Prod.snd heq⟩
  obtain ⟨new, hnew⟩ := hcalls
  refine { h with staged := fun r hr => Nat.le_trans (h.staged r hr) hwrites, cycle := ?_ }
  intro c hc
  obtain ⟨hlt, hle⟩ := h.cycle c hc
  rw [hnew, length_append, getD_eq_getElem?_getD, getElem?_append_left hlt,
    ← getD_eq_getElem?_getD]
  exact ⟨Nat.lt_add_right _ hlt, hle⟩

end Cycled

/-! ## Log writes and operations -/

namespace Volume

variable {s : Volume}

theorem foldl_finish_eq {d : List (Nat × Op)} (happlied : ∀ p ∈ d, p.1 ∈ s.log.applied) :
    ∃ extents removed, d.foldl (fun s p => s.finish (p.1 ∈ s.log.applied) p.2) s =
      { s with extents := extents, removed := removed } := by
  induction d generalizing s with
  | nil => exact ⟨s.extents, s.removed, rfl⟩
  | cons p d ih =>
    rw [foldl_cons, decide_eq_true (happlied p mem_cons_self), finish_true]
    obtain ⟨extents, removed, heq⟩ :=
      ih (s := { s with
        extents := p.2.extents s.extents
        removed := s.removed ++ p.2.removed }) fun q hq => happlied q (mem_cons_of_mem p hq)
    exact ⟨extents, removed, heq⟩

theorem settle_eq (hfailed : s.log.failedWrites = []) :
    ∃ extents removed ops,
      s.settle = { s with extents := extents, removed := removed, ops := ops } := by
  have happlied : ∀ p ∈ s.ops.filter fun p => returned s.log p.1, p.1 ∈ s.log.applied := by
    intro p hp
    simpa [returned, hfailed] using (mem_filter.mp hp).2
  obtain ⟨extents, removed, heq⟩ :=
    foldl_finish_eq (s := { s with ops := s.ops.filter fun p => !returned s.log p.1 }) happlied
  exact ⟨extents, removed, _, heq⟩

end Volume

/-- No block is in two extents, whatever part of the log is read. -/
def Replays (s : Volume) : Prop := ∀ k b, cover b ((s.replay k).map Prod.snd) ≤ 1

theorem Replays.append {s s' : Volume} {u : Update} (h : Replays s) (hbase : s'.base = s.base)
    (hupdates : s'.updates = s.updates ++ [u])
    (hlogged : ∀ b, cover b (s'.logged.map Prod.snd) ≤ 1) : Replays s' := by
  intro k b
  rw [Volume.replay, hupdates, hbase]
  by_cases hk : k ≤ s.updates.length
  · rw [take_append_of_le_length hk]
    exact h k b
  · have hfull : (s.updates ++ [u]).length ≤ k := by
      simp only [length_append, length_cons, length_nil]
      omega
    have hle := hlogged b
    rw [Volume.logged, hupdates, hbase] at hle
    rwa [take_of_length_le hfull]

structure Inv (s : Volume) : Prop where
  log : Tlog.Inv s.log
  failed : s.log.failedWrites = []
  placed : Placed s []
  replays : Replays s
  cycled : Cycled s

variable {space : List Nat} {e e' : Tlog.Encoding} {r : Range}

namespace Inv

variable {s : Volume} {op : Op}

section

variable (h : Inv s)
include h

theorem failed_step {a : Tlog.Sys.Action} (hcalm : Tlog.Calm s.log a) :
    (s.log.step a).failedWrites = [] := by
  have hlength := hcalm.2.2
  rw [h.failed] at hlength
  exact eq_nil_of_length_eq_zero hlength

theorem settle : Inv s.settle := by
  obtain ⟨extents, removed, ops, heq⟩ := Volume.settle_eq h.failed
  have hplaced := h.placed.settle h.failed
  rw [heq] at hplaced ⊢
  exact ⟨h.log, h.failed, hplaced, h.replays, { h.cycled with }⟩

theorem advance {a : Tlog.Sys.Action} (hcalm : Tlog.Calm s.log a) :
    Inv (s.advance a .other) := by
  refine settle ?_
  have hlog := h.log.step hcalm
  have hfailed := h.failed_step hcalm
  have hcycled := h.cycled.advance a
  have hplaced := h.placed
  by_cases hwrites : (s.log.step a).writes = s.log.writes
  · rw [if_pos hwrites]
    exact ⟨hlog, hfailed, { hplaced with length := hplaced.length.trans hwrites.symm },
      h.replays, { hcycled with }⟩
  · rw [if_neg hwrites]
    have hsucc : (s.log.step a).writes = s.log.writes + 1 := by
      rcases s.log.step_counts a with heq | ⟨-, heq⟩ | ⟨-, heq⟩
      · exact absurd (Tlog.Sys.writes_of_counts heq) hwrites
      · exact congrArg Prod.fst heq
      · exact absurd (congrArg Prod.fst heq) hwrites
    have hlogged : (s.updates ++ [Update.other]).foldl Update.apply s.base = s.logged := by
      rw [foldl_append]
      rfl
    refine ⟨hlog, hfailed, { hplaced with length := ?_, live := ?_, liveDistinct := ?_ }, ?_,
      { hcycled with }⟩
    · simp [hplaced.length, hsucc]
    · intro x hx
      exact hplaced.live x (by rwa [Volume.logged, hlogged] at hx)
    · rw [Volume.logged, hlogged]
      exact hplaced.liveDistinct
    · refine h.replays.append rfl rfl fun b => ?_
      rw [Volume.logged, hlogged]
      exact hplaced.cover_logged b

theorem releaseStorage
    (howned : s.storage.Owned (r :: ((s.placed []).map Prod.snd ++ s.spare))) :
    Inv (s.releaseStorage r) := by
  have hplaced := h.placed.releaseStorage howned
  have hcycled := h.cycled.releaseStorage r
  by_cases hr : r.span = 0
  · rwa [Volume.releaseStorage, if_pos hr]
  · rw [Volume.releaseStorage_eq _ hr] at hplaced hcycled ⊢
    exact ⟨h.log, h.failed, hplaced, h.replays, hcycled⟩

theorem refused (hready : Ready s op) : Inv (s.finish false op) := by
  have hplaced := hready.refused
  have howned := hready.owned
  cases op with
  | add id r lost =>
    cases lost with
    | true => exact h
    | false => exact h.releaseStorage howned
  | grow =>
    exact ⟨h.log, h.failed, hplaced, h.replays, { h.cycled with }⟩
  | remove | trim => exact h

theorem perform (op : Op) (hready : Ready s op)
    (hcalm : Tlog.Calm s.log (.write e e' space)) : Inv (s.perform op e e' space) := by
  have hlog := h.log.step hcalm
  have hfailed := h.failed_step hcalm
  have hcycled := h.cycled.advance (.write e e' space)
  unfold Volume.perform
  dsimp only
  split_ifs with hwrites
  · have hplaced : Placed { s with log := s.log.step (.write e e' space) } [] :=
      { hready.placed with length := hready.placed.length.trans hwrites.symm }
    exact refused ⟨hlog, hfailed, hplaced, h.replays, hcycled⟩
      ⟨hplaced, hready.fits, hready.idle, hready.owned⟩
  · have hsucc : (s.log.step (.write e e' space)).writes = s.log.writes + 1 := by
      rcases s.log.step_counts (.write e e' space) with heq | ⟨-, heq⟩ | ⟨⟨_, hflush⟩, -⟩
      · exact absurd (Tlog.Sys.writes_of_counts heq) hwrites
      · exact congrArg Prod.fst heq
      · cases hflush
    have hplaced := hready.staged hsucc s.log.writes
    refine settle ⟨hlog, hfailed, hplaced, ?_, { hcycled with }⟩
    exact h.replays.append rfl rfl hplaced.cover_logged

end

end Inv

variable {l : List (Nat × Range)} {op : Op}

theorem Op.Fits.mono {top top' : Nat} (h : op.Fits l top) (hle : top ≤ top') : op.Fits l top' := by
  cases op with
  | add => exact ⟨Nat.lt_of_lt_of_le h.1 hle, h.2⟩
  | grow | remove | trim => exact h

/-! ## The release cycle -/

namespace Cycled

variable {s : Volume}

theorem settleFrees (h : Cycled s) (ok : Bool) {flushes stable : List Flush}
    (hsub : ∀ f ∈ s.stable, f ∈ stable) (hflushes : flushes.filter Flush.release = [])
    (hstable : ok = true → ∀ x ∈ s.releasing, ∀ r ∈ s.releases[x.1]?, ∃ f ∈
      stable, f.Covers x.1 r) :
    Cycled (({ s with cycle := none, flushes := flushes, stable := stable } :
      Volume).settleFrees ok) := by
  have hnone : ∀ f ∈ flushes, f.release ≠ true := fun f hf hrel =>
    not_mem_nil (hflushes ▸ mem_filter.mpr ⟨hf, hrel⟩)
  have hfreed : ∀ i ∈ s.freed, ∀ r ∈ s.releases[i]?, ∃ f ∈ stable, f.Covers i r := by
    intro i hi r hr
    obtain ⟨f, hf, hcovers⟩ := h.freed i hi r hr
    exact ⟨f, hsub f hf, hcovers⟩
  cases ok with
  | true =>
    constructor
    · have hnumbers := h.numbers
      simp only [Volume.settleFrees, if_true, append_nil, map_append] at hnumbers ⊢
      rw [append_assoc] at hnumbers
      exact (perm_append_comm.append_left _).trans hnumbers
    · intro x hx
      simp only [Volume.settleFrees, if_true, append_nil] at hx ⊢
      exact h.pending x (mem_append_left _ hx)
    · exact h.staged
    · intro i hi r hr
      rcases mem_append.mp hi with hi | hi
      · exact hfreed i hi r hr
      · obtain ⟨x, hx, rfl⟩ := mem_map.mp hi
        exact hstable rfl x hx r hr
    · exact fun _ => rfl
    · simp [Volume.settleFrees, hflushes]
    · exact nofun
    · exact fun f hf hrel => absurd hrel (hnone f hf)
  | false =>
    constructor
    · simpa [Volume.settleFrees] using h.numbers
    · simpa [Volume.settleFrees] using h.pending
    · exact h.staged
    · exact hfreed
    · exact fun _ => rfl
    · simp [Volume.settleFrees, hflushes]
    · exact nofun
    · exact fun f hf hrel => absurd hrel (hnone f hf)

end Cycled

variable {i : Nat}

namespace Inv

variable {s : Volume}

theorem frame (h : Inv s) (waiters : Nat) (scheduled timer : Bool) :
    Inv { s with waiters := waiters, scheduled := scheduled, timer := timer } :=
  ⟨h.log, h.failed, { h.placed with }, h.replays, { h.cycled with }⟩

theorem releaseFlushed (h : Inv s) (ok : Bool) (flushes : List Flush) {stable : List Flush}
    (hsub : ∀ f ∈ s.stable, f ∈ stable) (hflushes : flushes.filter Flush.release = [])
    (hstable : ok = true → ∀ x ∈ s.releasing, ∀ r ∈ s.releases[x.1]?, ∃ f ∈
      stable, f.Covers x.1 r) :
    Inv (({ s with cycle := none, flushes := flushes, stable := stable } :
      Volume).releaseFlushed ok) := by
  have hsettled : Inv (({ s with cycle := none, flushes := flushes, stable := stable } :
      Volume).settleFrees ok) := by
    have hcycled := h.cycled.settleFrees ok hsub hflushes hstable
    refine ⟨?_, ?_, ?_, ?_, hcycled⟩
    · cases ok <;> exact h.log
    · cases ok <;> exact h.failed
    · cases ok with
      | true =>
        refine { h.placed with owned := Storage.Owned.foldl_free ?_ }
        refine h.placed.owned.le fun b => Nat.le_of_eq ?_
        simp only [Volume.settleFrees, if_true, Volume.placed, Volume.spare, cover_append,
          map_append, map_nil, cover_nil]
        omega
      | false =>
        refine { h.placed with owned := h.placed.owned.le fun b => Nat.le_of_eq ?_ }
        simp only [Volume.settleFrees, Bool.false_eq_true, if_false, Volume.placed, Volume.spare,
          cover_append, map_append, map_nil, cover_nil]
        omega
    · cases ok <;> exact h.replays
  unfold Volume.releaseFlushed
  dsimp only
  split_ifs
  · rw [Volume.releaseSchedule_eq]
    exact hsettled.frame 0 _ _
  · rw [Volume.releaseDefer_eq]
    exact hsettled.frame 0 _ _
  · exact hsettled.frame 0 _ _

theorem releaseLogged (h : Inv s) {c : Nat} {ok : Bool} (hcycle : s.cycle = some c)
    (hinvoked : (c, ok) ∈ s.log.invoked) :
    Inv (({ s with cycle := none } : Volume).releaseLogged ok) := by
  have hone := h.cycled.one
  rw [hcycle, Option.toList_some, length_singleton] at hone
  have hbool := Bool.toNat_le s.active
  have hflushes : s.flushes.filter Flush.release = [] :=
    eq_nil_of_length_eq_zero (by omega)
  cases ok with
  | true =>
    refine ⟨h.log, h.failed, { h.placed with }, h.replays, ?_⟩
    refine { h.cycled with one := ?_, cycle := nofun, flushes := ?_ }
    · simp only [Volume.releaseLogged, Volume.deviceFlush, if_true, filter_append,
        hflushes] at hone ⊢
      simpa using hone
    · intro f hf hrel x hx r hr
      rcases mem_append.mp hf with hf | hf
      · exact absurd (hflushes ▸ mem_filter.mpr ⟨hf, hrel⟩) not_mem_nil
      · rw [mem_singleton.mp hf]
        refine ⟨h.cycled.lt_length (mem_append_right _ hx), fun n hn => ?_⟩
        have hwant := Nat.lt_of_lt_of_le hn ((h.cycled.cycle c hcycle).2 x hx r hr)
        obtain ⟨hlt, hwritten⟩ := h.log.written hinvoked hwant
        exact mem_filter.mpr ⟨mem_range.mpr hlt, decide_eq_true hwritten⟩
  | false => exact h.releaseFlushed false s.flushes (fun _ hn => hn) hflushes (nofun)

theorem flushed (h : Inv s) {f : Flush} (hf : s.flushes[i]? = some f) (ok : Bool) :
    Inv (s.step (.flushed i ok)) := by
  have hperm : s.flushes.Perm (f :: s.flushes.eraseIdx i) := Tlog.perm_eraseIdx hf
  have hsub : ∀ g ∈ s.stable, g ∈ if ok then f :: s.stable else s.stable := by
    intro g hg
    split_ifs
    · exact mem_cons_of_mem f hg
    · exact hg
  have hone := h.cycled.one
  rw [(hperm.filter _).length_eq] at hone
  simp only [Volume.step, hf]
  by_cases hrel : f.release = true
  · rw [if_pos hrel]
    rw [filter_cons_of_pos hrel, length_cons] at hone
    have hbool := Bool.toNat_le s.active
    have hcycle : s.cycle = none := by
      cases hc : s.cycle with
      | none => rfl
      | some =>
        rw [hc, Option.toList_some, length_singleton] at hone
        omega
    have hflushes : (s.flushes.eraseIdx i).filter Flush.release = [] :=
      eq_nil_of_length_eq_zero (by omega)
    have hflushed := h.releaseFlushed ok (s.flushes.eraseIdx i) hsub hflushes (by
      rintro rfl x hx r hr
      refine ⟨f, mem_cons_self, ?_⟩
      exact h.cycled.flushes f (hperm.mem_iff.mpr mem_cons_self) hrel x hx r hr)
    rwa [← hcycle] at hflushed
  · rw [if_neg hrel]
    rw [filter_cons_of_neg hrel] at hone
    refine ⟨h.log, h.failed, { h.placed with }, h.replays, ?_⟩
    exact { h.cycled with
      freed := fun j hj r hr => (h.cycled.freed j hj r hr).imp fun g => .imp_left (hsub g)
      one := hone
      flushes := fun g hg => h.cycled.flushes g (hperm.mem_iff.mpr (mem_cons_of_mem f hg)) }

theorem releaseStart (h : Inv s)
    (hcalm : s.active = false → s.deferred.isEmpty = false → Tlog.Calm s.log (.flush space)) :
    Inv (s.releaseStart space) := by
  unfold Volume.releaseStart
  split_ifs with hactive hempty
  · exact h
  · exact h.frame 0 s.scheduled s.timer
  · have hidle : s.active = false := by simpa using hactive
    have hone := h.cycled.one
    rw [hidle, Bool.toNat_false] at hone
    have hreleasing := h.cycled.idle hidle
    have hcalm := hcalm hidle (by simpa using hempty)
    have hwrites : (s.log.step (.flush space)).writes = s.log.writes :=
      congrArg Prod.fst (s.log.flush_counts space)
    have hcalls : (s.log.step (.flush space)).calls = s.log.calls ++ [s.log.writes] :=
      congrArg Prod.snd (s.log.flush_counts space)
    refine settle ?_
    dsimp only
    rw [if_pos hwrites]
    refine ⟨h.log.step hcalm, h.failed_step hcalm, ?_, h.replays, ?_⟩
    · refine { h.placed with
        length := h.placed.length.trans hwrites.symm
        owned := h.placed.owned.le fun b => Nat.le_of_eq ?_ }
      simp only [Volume.placed, Volume.spare, cover_append]
      omega
    · constructor
      · have hnumbers := h.cycled.numbers
        rw [hreleasing, append_nil] at hnumbers
        simpa [hreleasing] using hnumbers
      · intro x hx
        refine h.cycled.pending x (mem_append.mpr (mem_append.mp hx).symm)
      · intro r hr
        rw [hwrites]
        exact h.cycled.staged r hr
      · exact h.cycled.freed
      · exact fun hfalse => (by cases hfalse)
      · have hflushes : (s.flushes.filter Flush.release).length = 0 := by omega
        simp [hflushes]
      · intro c hc
        cases hc
        dsimp only
        rw [hcalls]
        refine ⟨by simp, fun x hx r hr => ?_⟩
        rw [getD_eq_getElem?_getD, getElem?_append_right (Nat.le_refl _)]
        simpa using h.cycled.staged r (mem_of_getElem? hr)
      · intro f hf hrel
        have hmem : f ∈ s.flushes.filter Flush.release := mem_filter.mpr ⟨hf, hrel⟩
        have hpos := length_pos_of_mem hmem
        omega

end Inv

/-! ## Steps -/

theorem Op.Fits.id_lt {top : Nat} (h : op.Fits l top) (hbound : ∀ x ∈ l, x.1 < top) :
    op.id < top := by
  cases op with
  | add => exact h.1
  | grow id old | trim id old => exact hbound (id, old) h.1
  | remove id r => exact hbound (id, r) h

theorem mem_of_find? {id : Nat} {x : Nat × Range} (h : l.find? (·.1 = id) = some x) :
    (id, x.2) ∈ l := by
  have hid : x.1 = id := by simpa using find?_some h
  rw [← hid]
  exact mem_of_find?_eq_some h

namespace Inv

variable {s : Volume}

section

variable (h : Inv s)
include h

theorem move (storage : Storage) (held removed : List Range) (nextId : Nat)
    (hheld : ∀ r ∈ held, r.start ≤ r.stop) (hnextId : s.nextId ≤ nextId)
    (howned : storage.Owned ((s.placed []).map Prod.snd ++
      (held ++ removed ++ s.deferred.map Prod.snd ++ s.releasing.map Prod.snd))) :
    Inv { s with storage := storage, held := held, removed := removed, nextId := nextId } := by
  have hplaced := h.placed
  refine ⟨h.log, h.failed, { hplaced with
      bound := ?_
      heldOrdered := hheld
      fits := ?_
      owned := howned }, h.replays,
    { h.cycled with }⟩
  · exact fun x hx => Nat.lt_of_lt_of_le (hplaced.bound x hx) hnextId
  · exact fun p hp => (hplaced.fits p hp).mono hnextId

theorem take_held (hr : s.held[i]? = some r) {nextId : Nat}
    (hnextId : s.nextId ≤ nextId) :
    Inv { s with held := s.held.eraseIdx i, nextId := nextId } ∧
      s.storage.Owned (r :: ((s.placed []).map Prod.snd ++
        (s.held.eraseIdx i ++ s.removed ++ s.deferred.map Prod.snd ++
          s.releasing.map Prod.snd))) := by
  have hperm : s.held.Perm (r :: s.held.eraseIdx i) := Tlog.perm_eraseIdx hr
  suffices howned : s.storage.Owned _ by
    refine ⟨h.move _ _ _ _ (fun q hq => h.placed.heldOrdered q ?_) hnextId ?_, howned⟩
    · exact hperm.mem_iff.mpr (mem_cons_of_mem r hq)
    · exact howned.le fun b => by simp only [cover_cons]; omega
  refine h.placed.owned.le fun b => Nat.le_of_eq ?_
  simp only [Volume.spare, cover_append, cover_cons, cover_perm hperm]
  omega

theorem take_removed (hr : s.removed[i]? = some r) :
    Inv { s with removed := s.removed.eraseIdx i } ∧
      s.storage.Owned (r :: ((s.placed []).map Prod.snd ++
        (s.held ++ s.removed.eraseIdx i ++ s.deferred.map Prod.snd ++
          s.releasing.map Prod.snd))) := by
  have hperm : s.removed.Perm (r :: s.removed.eraseIdx i) := Tlog.perm_eraseIdx hr
  suffices howned : s.storage.Owned _ by
    refine ⟨h.move _ _ _ _ h.placed.heldOrdered (Nat.le_refl _) ?_, howned⟩
    exact howned.le fun b => by simp only [cover_cons]; omega
  refine h.placed.owned.le fun b => Nat.le_of_eq ?_
  simp only [Volume.spare, cover_append, cover_cons, cover_perm hperm]
  omega

theorem ready (hfits : op.Fits s.extents s.nextId) (hidle : s.Idle op.id)
    (howned : op.owned = []) : Ready s op := by
  refine ⟨h.placed, hfits, hidle, ?_⟩
  rw [howned]
  exact h.placed.owned

theorem step_add {lost : Bool} (hcalm : Tlog.Calm s.log (.write e e' space)) :
    Inv (s.step (.add i lost e e' space)) := by
  simp only [Volume.step]
  cases hr : s.held[i]? with
  | none => exact h
  | some r =>
    obtain ⟨hinv, howned⟩ := h.take_held hr (Nat.le_succ s.nextId)
    have hbound := h.placed.bound
    refine hinv.perform (.add s.nextId r lost)
      ⟨hinv.placed, ⟨Nat.lt_succ_self _, fun hid => ?_, ?_⟩, ?_, howned⟩ hcalm
    · obtain ⟨x, hx, heq⟩ := mem_map.mp hid
      exact absurd heq (Nat.ne_of_lt (hbound x hx))
    · exact h.placed.heldOrdered r (mem_of_getElem? hr)
    · intro p hp
      have hfits := h.placed.fits p (mem_append_left _ hp)
      exact Nat.ne_of_lt (hfits.id_lt hbound)

theorem step_grow {id n : Nat} (hidle : s.Idle id)
    (hcalm : Tlog.Calm s.log (.write e e' space)) :
    Inv (s.step (.grow id n e e' space)) := by
  simp only [Volume.step]
  cases hx : s.extents.find? (·.1 = id) with
  | none => exact h
  | some x =>
    have hmem := mem_of_find? hx
    dsimp only
    cases hst : s.storage.reserve (.ofLength x.2.stop n) with
    | none => exact h
    | some =>
      obtain ⟨hfree, rfl⟩ := Storage.reserve_eq_some hst
      have howned := h.placed.owned.mark_true hfree
      have hinv := h.move _ s.held s.removed s.nextId h.placed.heldOrdered
        (Nat.le_refl _) (howned.le fun b => by
          simp only [Volume.spare, cover_cons]
          omega)
      refine hinv.perform (.grow id x.2 (.ofLength x.2.stop n))
        ⟨hinv.placed, ⟨hmem, h.placed.ordered (id, x.2) hmem, rfl, ?_⟩, hidle, howned⟩ hcalm
      exact Nat.le_add_right _ _

theorem step_allocate (n : Nat) : Inv (s.step (.allocate n)) := by
  simp only [Volume.step]
  cases hst : s.storage.allocate n with
  | none => exact h
  | some p =>
    obtain ⟨start, st⟩ := p
    obtain ⟨hfree, heq⟩ := Storage.allocate_eq_some hst
    rw [heq]
    have howned := h.placed.owned.mark_true hfree
    refine h.move _ _ s.removed s.nextId ?_ (Nat.le_refl _) ?_
    · intro r hr
      rcases mem_append.mp hr with hr | hr
      · exact h.placed.heldOrdered r hr
      · rw [mem_singleton.mp hr]
        exact Nat.le_add_right _ _
    · refine howned.le fun b => Nat.le_of_eq ?_
      simp only [Volume.spare, cover_append, cover_cons, cover_nil]
      omega

theorem step {a : Volume.Action} (hcalm : Calm s a) : Inv (s.step a) := by
  cases a with
  | log => exact h.advance hcalm
  | allocate n => exact h.step_allocate n
  | discard i =>
    simp only [Volume.step]
    cases hr : s.held[i]? with
    | none => exact h
    | some =>
      obtain ⟨hinv, howned⟩ := h.take_held hr (Nat.le_refl _)
      exact hinv.releaseStorage howned
  | add => exact h.step_add hcalm
  | grow => exact h.step_grow hcalm.1 hcalm.2
  | remove id =>
    simp only [Volume.step]
    cases hx : s.extents.find? (·.1 = id) with
    | none => exact h
    | some x =>
      exact h.perform (.remove id x.2) (h.ready (mem_of_find? hx) hcalm.1 rfl) hcalm.2
  | trim id keep =>
    simp only [Volume.step]
    cases hx : s.extents.find? (·.1 = id) with
    | none => exact h
    | some x =>
      dsimp only
      split_ifs with hkeep
      · have hmem := mem_of_find? hx
        have hordered := h.placed.ordered (id, x.2) hmem
        refine h.perform (.trim id x.2 keep) (h.ready ⟨hmem, ?_⟩ hcalm.1 rfl) hcalm.2
        simp only [Range.span] at hkeep hordered
        omega
      · exact h
  | release i =>
    simp only [Volume.step]
    cases hr : s.removed[i]? with
    | none => exact h
    | some =>
      obtain ⟨hinv, howned⟩ := h.take_removed hr
      exact hinv.releaseStorage howned
  | wait =>
    simp only [Volume.step, Volume.releaseSchedule_eq]
    exact h.frame _ _ _
  | timer =>
    simp only [Volume.step, Volume.releaseSchedule_eq]
    split_ifs
    · exact h.frame _ _ _
    · exact h.frame _ _ _
    · exact h
  | start =>
    simp only [Volume.step]
    split_ifs with hscheduled
    · exact (h.frame s.waiters false s.timer).releaseStart (hcalm hscheduled)
    · exact h
  | logged =>
    simp only [Volume.step]
    cases hc : s.cycle with
    | none => exact h
    | some c =>
      dsimp only
      cases hx : s.log.invoked.find? (·.1 = c) with
      | none => exact h
      | some x =>
        have hid : x.1 = c := by simpa using find?_some hx
        have hmem := mem_of_find?_eq_some hx
        obtain ⟨c', ok⟩ := x
        exact h.releaseLogged hc (hid ▸ hmem)
  | sync =>
    refine ⟨h.log, h.failed, { h.placed with }, h.replays, ?_⟩
    have hcycled := h.cycled
    refine { hcycled with one := ?_, flushes := ?_ }
    · simpa [Volume.step, Volume.deviceFlush] using hcycled.one
    · intro f hf hrel
      rcases mem_append.mp hf with hf | hf
      · exact hcycled.flushes f hf hrel
      · rw [mem_singleton.mp hf] at hrel
        cases hrel
  | flushed i ok =>
    cases hf : s.flushes[i]? with
    | none => simpa only [Volume.step, hf] using h
    | some => exact h.flushed hf ok

end

theorem mounted (d : Mounted) (version : Tlog.Version) (start span replayed : Nat)
    (oldEncoding : Bool) (extensions : List (Nat × Nat)) (totalEntries obsoleteEntries : Nat) :
    Inv (d.volume (Tlog.Sys.mounted version start span replayed oldEncoding extensions totalEntries
      obsoleteEntries)) := by
  refine ⟨Tlog.Inv.mounted .., rfl, ?_, ?_, ?_⟩
  · refine ⟨d.distinct, d.bound, d.ordered, d.heldOrdered, fun p hp => (by cases hp), nodup_nil,
      ?_, rfl, fun x hx => .inr ⟨hx, fun p hp => (by cases hp)⟩, d.distinct⟩
    simpa [Volume.placed, Volume.spare, Mounted.volume] using d.owned
  · intro k b
    have howned := d.owned b
    have hbool := Bool.toNat_le (d.storage.used b)
    rw [cover_append] at howned
    simp only [Volume.replay, Mounted.volume, take_nil, foldl_nil]
    omega
  · exact ⟨.nil, fun x hx => (by cases hx), fun r hr => (by cases hr), fun i hi => (by cases hi),
      fun _ => rfl, rfl, fun c hc => (by cases hc), fun f hf => (by cases hf)⟩

theorem mayReuse (h : Inv s) {q : Range} (hfree : s.storage.isFree q = true) : s.MayReuse q := by
  intro i hlt r hi hmeets
  have hnumber := h.cycled.numbers.mem_iff.mpr (List.mem_range.mpr hlt)
  rcases List.mem_append.mp hnumber with hpending | hfreed
  · -- the blocks of a release that is not freed yet are allocated
    obtain ⟨x, hx, rfl⟩ := mem_map.mp hpending
    obtain ⟨n, hn⟩ := h.cycled.pending x hx
    cases (Option.mem_def.mp hi).symm.trans hn
    obtain ⟨b, hb, hbq⟩ := hmeets
    have hspare : x.2 ∈ s.spare := by
      rcases mem_append.mp hx with hx | hx
      · exact mem_append_left _ (mem_append_right _ (mem_map_of_mem hx))
      · exact mem_append_right _ (mem_map_of_mem hx)
    have hused := h.placed.owned.used (mem_append_right _ hspare)
      (Range.mem_points.mp hb)
    rw [Storage.isFree_iff.mp hfree b hbq] at hused
    cases hused
  · exact h.cycled.freed i hfreed r hi

end Inv

/-! ## The main result -/

/-- What can be allocated or reserved may be used again. -/
def Volume.Reuses (s : Volume) : Prop :=
  (∀ n start st, s.storage.allocate n = some (start, st) → s.MayReuse (.ofLength start n)) ∧
    ∀ r st, s.storage.reserve r = some st → s.MayReuse r

/-- In every run of a mounted volume whose steps meet the condition, in every
state reached: the allocator hands out no block of a release that is not
durable, no release was freed twice, and no block is in two extents of the log,
whatever part of it is read. -/
theorem released_storage_reuse (d : Mounted) (version : Tlog.Version) (start span replayed : Nat)
    (oldEncoding : Bool) (extensions : List (Nat × Nat)) (totalEntries obsoleteEntries : Nat)
    (as : List Volume.Action)
    (hcalm : AllSteps Volume.step Calm (d.volume (Tlog.Sys.mounted version start span replayed
      oldEncoding extensions totalEntries obsoleteEntries)) as) :
    (run Volume.step (d.volume (Tlog.Sys.mounted version start span replayed oldEncoding extensions
        totalEntries obsoleteEntries)) as).Reuses ∧
      (run Volume.step (d.volume (Tlog.Sys.mounted version start span replayed oldEncoding
        extensions totalEntries obsoleteEntries)) as).freed.Nodup ∧
      Replays (run Volume.step (d.volume (Tlog.Sys.mounted version start span replayed oldEncoding
        extensions totalEntries obsoleteEntries)) as) := by
  have hinv := run_invariant_of_allSteps (I := Inv) (fun _ _ h hcalm => h.step hcalm)
    (Inv.mounted d version start span replayed oldEncoding extensions totalEntries obsoleteEntries)
    hcalm
  refine ⟨⟨fun n start st hst => ?_, fun r st hst => ?_⟩, ?_, hinv.replays⟩
  · exact hinv.mayReuse (Storage.allocate_eq_some hst).1
  · exact hinv.mayReuse (Storage.reserve_eq_some hst).1
  · have hnodup := hinv.cycled.numbers.nodup_iff.mpr nodup_range
    exact (nodup_append.mp hnodup).2.1

/-- A volume of four blocks with one extent, at block 1. -/
def smallVolume : Mounted where
  storage := ⟨4, fun b => b = 1⟩
  extents := [(0, ⟨1, 2⟩)]
  held := []
  nextId := 1
  distinct := by decide
  bound := by decide
  ordered := by decide
  heldOrdered := by decide
  owned := by
    intro b
    by_cases hb : b = 1
    · subst hb
      decide
    · have hnot : b ∉ (⟨1, 2⟩ : Range) := by
        rw [Range.mem_def]
        dsimp only
        omega
      simp [hnot]

/-- The extent is removed and its block given to `filesystem_release_storage`,
and a cycle frees it: the log is flushed, then the device. -/
def releasedRun : List Volume.Action :=
  [.remove 0 Tlog.smallUpdate Tlog.smallUpdate [], .release 0, .timer, .start [],
    .log (.task 0 true []), .log (.task 0 true []), .logged, .flushed 0 true]

theorem released_storage_reuse_cycle :
    ((run Volume.step (smallVolume.volume Tlog.dueVolume) releasedRun).freed = [0] ∧
      ((run Volume.step (smallVolume.volume Tlog.dueVolume) releasedRun).storage.allocate 2).map
        Prod.fst = some 0) ∧
      (run Volume.step (smallVolume.volume Tlog.dueVolume) releasedRun).Reuses ∧
      (run Volume.step (smallVolume.volume Tlog.dueVolume) releasedRun).freed.Nodup ∧
      Replays (run Volume.step (smallVolume.volume Tlog.dueVolume) releasedRun) :=
  ⟨by decide +kernel, released_storage_reuse smallVolume .v6 8 16 40 false [(8, 16)] 8192 8192
    releasedRun (by decide +kernel)⟩

/-- In such a run a block is in one extent, operation under way or range on its way to be
freed, and then allocated; every release waits, is in the cycle or was freed, once;
and the log has only extents that are there, unless an operation is under way. -/
theorem storage_owned (d : Mounted) (version : Tlog.Version) (start span replayed : Nat)
    (oldEncoding : Bool) (extensions : List (Nat × Nat)) (totalEntries obsoleteEntries : Nat)
    (as : List Volume.Action) :
    let s₀ := d.volume (Tlog.Sys.mounted version start span replayed oldEncoding extensions
      totalEntries obsoleteEntries)
    let s := run Volume.step s₀ as
    AllSteps Volume.step Calm s₀ as →
    (∀ b, cover b ((s.placed []).map Prod.snd ++ s.spare) ≤ (s.storage.used b).toNat) ∧
      ((s.deferred ++ s.releasing).map Prod.fst ++ s.freed).Perm (List.range s.releases.length) ∧
      (s.ops = [] → ∀ x ∈ s.logged, x ∈ s.extents) := by
  intro s₀ s hcalm
  have hinv : Inv s := run_invariant_of_allSteps (fun _ _ h hcalm => h.step hcalm)
    (Inv.mounted d ..) hcalm
  refine ⟨hinv.placed.owned, hinv.cycled.numbers, fun hops x hx => ?_⟩
  rcases hinv.placed.live x hx with ⟨p, hp, -⟩ | ⟨hx, -⟩
  · rw [append_nil, hops] at hp
    cases hp
  · exact hx

theorem storage_owned_cycle :
    let s := run Volume.step (smallVolume.volume Tlog.dueVolume) releasedRun
    ∀ x ∈ s.logged, x ∈ s.extents :=
  (storage_owned smallVolume .v6 8 16 40 false [(8, 16)] 8192 8192 releasedRun
    (by decide +kernel)).2.2 (by decide +kernel)

/-- The log flush of the first cycle fails, and the ranges wait for another one.
The log is no longer dirty, so its flush returns OK at once: the second cycle
frees the block although the removal of the extent was never written. -/
def retriedRun : List Volume.Action :=
  [.remove 0 Tlog.smallUpdate Tlog.smallUpdate [], .release 0, .timer, .start [],
    .log (.task 0 false []), .log (.task 0 true []), .logged, .wait, .start [], .logged,
    .flushed 0 true]

theorem reused_before_durable :
    ((run Volume.step (smallVolume.volume Tlog.dueVolume) retriedRun).storage.allocate 2).map
        Prod.fst = some 0 ∧
      ¬(run Volume.step (smallVolume.volume Tlog.dueVolume) retriedRun).MayReuse (.ofLength 0 2) ∧
      ¬(run Volume.step (smallVolume.volume Tlog.dueVolume) retriedRun).Reuses := by
  have hstart : ((run Volume.step (smallVolume.volume Tlog.dueVolume) retriedRun).storage.allocate
      2).map Prod.fst = some 0 := by decide +kernel
  have hnot : ¬(run Volume.step (smallVolume.volume Tlog.dueVolume) retriedRun).MayReuse
      (.ofLength 0 2) := by decide +kernel
  refine ⟨hstart, hnot, fun h => hnot ?_⟩
  obtain ⟨p, hp, hzero⟩ := Option.map_eq_some_iff.mp hstart
  have hreuse := h.1 2 p.1 p.2 hp
  rwa [hzero] at hreuse

end Jerboa.Tfs.Release
