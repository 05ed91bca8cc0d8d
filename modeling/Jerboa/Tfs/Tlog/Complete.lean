import Jerboa.Tfs.Tlog.Invariant

/-!
# Every completion is called once, and OK means written

Flushes and compactions come to an end, and callers are told.
-/

namespace Jerboa.Tfs.Tlog

open List Function

variable {s : Sys} {S : List Nat} {m : Nat} {H H' : List Nat} {l : Nat} {rest : List Task}
  {space : List Nat}

theorem LogInv.timer {D : Completion → Nat → Prop} {durable : List (Write Byte)}
    {ts : List Task} {tl : Log} (h : LogInv D durable ts tl) (b : Bool) :
    LogInv D durable ts { tl with timer := b } :=
  ⟨h.shape.congr rfl rfl rfl, h.dirty, h.next, h.waiters, h.tokens,
    fun hfaulted => { h.sound hfaulted with }⟩

theorem Core.timer (h : Core s S m H) (hl : l < s.nlogs) (b : Bool) :
    Core (s.setLog l { s.logs l with timer := b }) S m H := by
  have hstep : LogStep s S l [] [] s.tasks s.durable { s.logs l with timer := b } := by
    refine ⟨hl, .refl _, mine_nil, mine_nil, fun _ hb => hb,
      ⟨fun h => h, .rfl, fun _ h => h, fun _ h => h⟩, ?_, ?_⟩
    · intro _ hfaulted hfault
      simp [hfaulted] at hfault
    · simpa using (h.log l hl).timer b
  simpa [Sys.logStep, Sys.setLog] using h.logStep hstep rfl rfl s.nrecords

theorem Thread.holds_eq_nil {logs : Nat → Log} {t : Thread} (h : t.cont.isSwitching = false) :
    t.holds logs = [] := by
  unfold Thread.holds
  cases hc : t.cont with
  | switching => simp [hc, Cont.isSwitching] at h
  | done | logged | loggedTwice => rfl

theorem Core.park (h : Core s S m (H' ++ H)) {k : Cont} (hinv : ThreadInv s ⟨l, k⟩)
    (hholds : Thread.holds s.logs ⟨l, k⟩ = H')
    (hsingle : k.isSwitching = true → NoSwitching s) : Core (s.park l k) S m H := by
  refine { h with temp := ?_, threads := ?_, single := ?_, applied := ?_, account := ?_ }
  · intro t ht
    have hc := h.temp t ht
    exact { hc with phase := hc.phase.congr rfl rfl rfl rfl }
  · intro t ht
    rcases mem_append.mp ht with ht | ht
    · exact h.threads t ht
    · rw [mem_singleton.mp ht]
      exact hinv
  · change ((s.threads ++ [(⟨l, k⟩ : Thread)]).filter fun t => t.cont.isSwitching).length ≤ 1
    rw [filter_append, length_append]
    cases hk : k.isSwitching with
    | false => simpa [hk] using h.single
    | true =>
      have hnone : (s.threads.filter fun t => t.cont.isSwitching) = [] := by
        simpa [filter_eq_nil_iff, NoSwitching] using hsingle hk
      simp [hnone, hk]
  · intro n hn
    refine (h.applied n hn).imp_right ?_
    rintro ⟨t, ht, hwrites⟩
    exact ⟨t, mem_append_left _ ht, hwrites⟩
  · have hwaiting : waiting (s.park l k) = waiting s ++ H' := by
      simp [waiting, Sys.park, hholds]
    rw [hwaiting]
    simpa [Sys.park] using h.account

theorem Core.park_empty (h : Core s S m H) {k : Cont} (hinv : ThreadInv s ⟨l, k⟩)
    (hk : k.isSwitching = false) : Core (s.park l k) S m H := by
  have hcore : Core s S m ([] ++ H) := h
  exact hcore.park hinv (Thread.holds_eq_nil hk) (by simp [hk])

theorem Core.park_done (h : Core s S m H) (hl : l < s.nlogs) : Core (s.park l .done) S m H :=
  h.park_empty ⟨hl, trivial⟩ rfl

/-! ## A flush is over -/

/-- The state when `log_flush_complete` has called the completions. -/
def Sys.completed (s : Sys) (l : Nat) (ok : Bool) : Sys :=
  { s.setLog l (completedLog (s.logs l)) with
    invoked := s.invoked ++ (callers (s.logs l).flushCompletions).map (·, ok)
    tasks := s.tasks ++ rebuilds ok (s.logs l).flushCompletions }

theorem Sys.logFlushComplete_eq (s : Sys) (l : Nat) (ok : Bool) (space : List Nat) :
    s.logFlushComplete l ok space =
      Sys.parkIf ((s.completed l ok).logFlushRestaged l space) l .done := by
  simp [Sys.logFlushComplete, Sys.runFlushCompletions, Sys.completed, Sys.setLog, Sys.invoke,
    completedLog]

/-- `log_flush_restaged` behind a flush: nobody waits for another one, or a
compaction takes care of them, or the next flush starts. -/
theorem Sys.logFlushRestaged_cases (s : Sys) (l : Nat) (space : List Nat) (ok : Bool)
    (hnext : (s.logs l).nextCompletions ≠ [] → (s.logs l).restaged = true) :
    (((s.logs l).nextCompletions = [] ∨ (s.logs l).state = .compacting) ∧
        ∃ b, (s.completed l ok).logFlushRestaged l space =
          ((s.completed l ok).setLog l { completedLog (s.logs l) with timer := b }, false)) ∨
      ((s.logs l).nextCompletions ≠ [] ∧ (s.logs l).state ≠ .compacting ∧
        (s.completed l ok).logFlushRestaged l space =
          (((s.completed l ok).setLog l (restartedLog (s.logs l))).startFlush l space, true)) := by
  have hlog : (s.completed l ok).logs l = completedLog (s.logs l) := by
    simp [Sys.completed, Sys.setLog]
  have hsame : (s.completed l ok).setLog l (completedLog (s.logs l)) = s.completed l ok := by
    rw [← hlog, Sys.setLog_self]
  unfold Sys.logFlushRestaged
  simp only [hlog]
  split_ifs with hstop hwait
  · refine .inl ⟨?_, (s.logs l).timer, ?_⟩
    · by_cases hempty : (s.logs l).nextCompletions = []
      · exact .inl hempty
      · refine .inr ?_
        simpa [completedLog, hnext hempty] using hstop
    · exact Prod.ext hsame.symm rfl
  · have hrestaged : (s.logs l).restaged = true := by
      by_contra hrestaged
      simp [completedLog, hrestaged] at hstop
    have hstate : (s.logs l).state ≠ .compacting := by
      intro hstate
      simp [completedLog, hstate] at hstop
    refine .inr ⟨by simpa [completedLog] using hwait, hstate, ?_⟩
    rcases ((s.completed l ok).setLog l (Sys.takeNext (completedLog (s.logs l)))).logFlush_cases
      l none space with ⟨hdirty, -, -⟩ | ⟨hbusy, -⟩ | ⟨-, -, -, heq⟩
    · simp [Sys.setLog, Sys.takeNext, Sys.addFlush, completedLog, hrestaged] at hdirty
    · simp [Sys.setLog, Sys.takeNext, Sys.addFlush, completedLog, hstate] at hbusy
    · rw [heq]
      simp [Sys.setLog, Sys.takeNext, Sys.addFlush, completedLog, restartedLog]
  · refine .inl ⟨.inl (by simpa [completedLog] using hwait), true, rfl⟩

variable {ok : Bool}

theorem FlushShape.complete_only {tl : Log} {ts : List Task}
    (h : FlushShape tl (.flushComplete l ok :: ts)) : ts = [] := by
  cases h with
  | writing _ _ _ hstorage =>
    have hfalse := hstorage _ mem_cons_self
    cases hfalse
  | ending => rfl

theorem Core.log_complete (h : Core s S m H)
    (hperm : s.tasks.Perm ([.flushComplete l ok] ++ rest)) :
    l < s.nlogs ∧ rest.filter (Task.mine l) = [] ∧
      LogInv (demand s.calls S) s.durable [.flushComplete l ok] (s.logs l) := by
  have hmine : (Task.flushComplete l ok).mine l = true := by
    simp [Task.mine]
  have hlog := h.log_cons hperm hmine
  have hrest := hlog.shape.complete_only
  rw [hrest] at hlog
  exact ⟨h.lt_of_mine (hperm.mem_iff.mpr (by simp)) hmine, hrest, hlog⟩

theorem keeps_completedLog (tl : Log) (b : Bool) :
    Keeps tl { completedLog tl with timer := b } :=
  ⟨fun h => h, .rfl, fun _ h => h, fun _ h => h⟩

theorem Core.complete_step (h : Core s S m H) (hperm : s.tasks.Perm ([.flushComplete l ok] ++ rest))
    (hnext : (s.logs l).nextCompletions = [] ∨ (s.logs l).state = .compacting) (b : Bool) :
    LogStep s S l [.flushComplete l ok] [] rest s.durable
      { completedLog (s.logs l) with timer := b } := by
  obtain ⟨hl, hrest, hlog⟩ := h.log_complete hperm
  refine ⟨hl, hperm, mine_singleton (by simp [Task.mine]), mine_nil, fun _ hb => hb,
    keeps_completedLog _ b, ?_, ?_⟩
  · intro _ hfaulted hfault
    simp [completedLog, hfaulted] at hfault
  · rw [hrest]
    exact (hlog.completed hnext).timer b

theorem rebuilds_eq_nil {cs : List Completion} (h : ∀ x ∈ cs, ∃ c, x = .caller c) (ok : Bool) :
    rebuilds ok cs = [] := by
  unfold rebuilds
  rw [filterMap_eq_nil_iff]
  intro x hx
  obtain ⟨c, rfl⟩ := h x hx
  rfl

theorem mem_callers {cs : List Completion} {c : Nat} : c ∈ callers cs ↔ .caller c ∈ cs := by
  unfold callers
  rw [mem_filterMap]
  constructor
  · rintro ⟨x, hx, heq⟩
    cases x with
    | caller =>
      cases heq
      exact hx
    | rebuild => cases heq
  · exact fun hx => ⟨_, hx, rfl⟩

section

variable (h : Core s S m H)
include h

theorem Core.complete_tl (hperm : s.tasks.Perm ([.flushComplete s.tl ok] ++ rest))
    {us : List Task} {tl' : Log}
    (hs : LogStep s S s.tl [.flushComplete s.tl ok] us rest s.durable tl')
    (hlists : tl'.flushCompletions = [] ∧ tl'.nextCompletions = (s.logs s.tl).nextCompletions ∨
      tl'.flushCompletions = (s.logs s.tl).nextCompletions ∧ tl'.nextCompletions = [] ∧
        (s.logs s.tl).state ≠ .compacting) :
    Core (s.logStep s.tl tl' (rest ++ us) s.durable s.nrecords
      (s.invoked ++ (callers (s.logs s.tl).flushCompletions).map (·, ok))) S m H := by
  have hmove : Core (s.logStep s.tl tl' (rest ++ us) s.durable s.nrecords s.invoked) S m
      (callers (s.logs s.tl).flushCompletions ++ H) := by
    rcases hlists with ⟨hflush, hnext⟩ | ⟨hflush, hnext, hstate⟩
    · refine h.moveTokens hs (by simp [hflush]) (hnext ▸ h.tl_next) (by simp [hflush]) fun a => ?_
      rw [hflush, hnext]
      simp only [callers, filterMap_nil, count_append, count_nil]
      omega
    · refine h.moveTokens hs (hflush ▸ h.tl_next) (by simp [hnext])
        (fun htemp => (hstate (h.compacting.mpr htemp)).elim) fun a => ?_
      rw [hflush, hnext]
      simp only [callers, filterMap_nil, count_append, count_nil]
      omega
  refine hmove.invoked ?_
  rintro rfl c hc n hn
  obtain ⟨-, -, hlog⟩ := h.log_complete hperm
  obtain ⟨r, hr, hmem, hb⟩ := hlog.stored_of_complete (mem_callers.mp hc) hn
  have hr' : r ∈ (update s.logs s.tl tl' s.tl).records := by
    rw [update_self]
    exact hs.keeps.records r hr
  refine ⟨⟨r, hr', hmem, hb⟩, fun htemp => ?_⟩
  obtain ⟨t, ht⟩ := Option.ne_none_iff_exists'.mp htemp
  exact (h.temp t ht).waiters c (mem_callers.mp hc) n hn

theorem Core.flush_eq (hl : l < s.nlogs) (htl : l ≠ s.tl) :
    (s.logs l).flushCompletions = [] ∨ s.temp = some l ∧ ∃ first start span,
      (s.logs l).flushCompletions = [.rebuild s.tl l first start span] ∧
        s.tasks.filter Task.isCompaction = [] := by
  by_cases hflush : (s.logs l).flushCompletions = []
  · exact .inl hflush
  · obtain ⟨x, hx⟩ := exists_mem_of_ne_nil _ hflush
    have htemp : s.temp = some l := by
      cases x with
      | caller c => exact (htl (h.inUse l hl c hx)).elim
      | rebuild old new first start span => exact h.rebuild l hl old new first start span hx
    refine .inr ⟨htemp, ?_⟩
    cases (h.temp l htemp).phase with
    | flushing first start span hflush htasks => exact ⟨first, start, span, hflush, htasks⟩
    | rebuilt first start span ok hempty | linking w hempty =>
      exact (hflush hempty).elim

theorem Core.complete_rebuild
    (hperm : s.tasks.Perm ([.flushComplete l ok] ++ rest)) (htemp : s.temp = some l)
    {first : Ext Byte} {start span : Nat}
    (hflush : (s.logs l).flushCompletions = [.rebuild s.tl l first start span])
    (htasks : s.tasks.filter Task.isCompaction = []) (b : Bool) :
    Core (s.logStep l { completedLog (s.logs l) with timer := b }
      (rest ++ [.rebuildComplete s.tl l first start span ok]) s.durable s.nrecords s.invoked)
      S m H := by
  have hc := h.temp l htemp
  obtain ⟨-, -, hlog⟩ := h.log_complete hperm
  have hs := h.complete_step hperm (.inl hc.next) b
  have hshell : Shell s (s.logStep l { completedLog (s.logs l) with timer := b }
      (rest ++ [.rebuildComplete s.tl l first start span ok]) s.durable s.nrecords s.invoked) :=
    { hs.shell nofun (fun _ => rfl) nofun (fun x hx => .inl hx) s.nrecords s.invoked with }
  have hfilter : ∀ k,
      (rest ++ [Task.rebuildComplete s.tl l first start span ok]).filter (Task.mine k) =
        (rest ++ []).filter (Task.mine k) := by
    intro k
    simp [filter_append, Task.mine]
  have htl : s.tl ≠ l := fun heq => hc.ne heq.symm
  refine h.frame hshell (hs.unfaulted s.nrecords s.invoked) ?_ ?_ ?_ ?_ ?_ ?_ ?_
  · intro k hk
    have hinv := h.log_logStep hs k hk
    rw [← hfilter] at hinv
    exact hinv
  · intro k hk
    exact (hfilter k).trans (h.fresh_logStep hs k hk)
  · intro t ht
    rw [htemp] at ht
    cases ht
    refine .rebuilt first start span ok (by simp [completedLog]) ?_ ?_
    · have hnone := perm_nil.mp (htasks ▸ hs.compaction)
      rw [append_nil] at hnone
      simp [Sys.logStep, Sys.setLog, filter_append, hnone, Task.isCompaction]
    · rintro rfl n hn
      have hwaits : Completion.rebuild s.tl l first start span ∈ (s.logs l).flushCompletions := by
        simp [hflush]
      obtain ⟨r, hr, hmem, hb⟩ := hlog.stored_of_complete hwaits hn
      exact ⟨r, by simpa [completedLog] using hr, hmem, hb⟩
  · exact fun hnone => by simp [htemp] at hnone
  · intro _ c hcaller
    change Completion.caller c ∈ (update s.logs l _ s.tl).flushCompletions at hcaller
    rw [update_of_ne htl] at hcaller
    exact hc.waiters c hcaller
  · intro call hcall htrue n hn
    obtain ⟨hwritten, hS⟩ := h.ok call hcall htrue n hn
    exact ⟨hshell.writtenIn hwritten, hS⟩
  · have hwaiting : waiting (s.logStep l { completedLog (s.logs l) with timer := b }
        (rest ++ [.rebuildComplete s.tl l first start span ok]) s.durable s.nrecords s.invoked) =
        waiting s := by
      unfold waiting
      rw [h.holds_eq hshell]
      change callers (update s.logs l _ s.tl).flushCompletions ++
        callers (update s.logs l _ s.tl).nextCompletions ++ _ = _
      rw [update_of_ne htl]
    rw [hwaiting]
    exact h.account

theorem Core.logFlushComplete
    (hperm : s.tasks.Perm ([.flushComplete l ok] ++ rest))
    (hfault : SafeFault s l (({ s with tasks := rest } : Sys).logFlushComplete l ok space)) :
    Core (({ s with tasks := rest } : Sys).logFlushComplete l ok space) S m H := by
  obtain ⟨hl, hrest, hlog⟩ := h.log_complete hperm
  rw [Sys.logFlushComplete_eq] at hfault ⊢
  rcases ({ s with tasks := rest } : Sys).logFlushRestaged_cases l space ok
    (fun hne => (hlog.next hne).1) with ⟨hidle, b, heq⟩ | ⟨hne, hstate, heq⟩
  · rw [heq, Sys.parkIf]
    have hs := h.complete_step hperm hidle b
    by_cases htl : l = s.tl
    · subst htl
      have hcore := h.complete_tl hperm hs (.inl ⟨rfl, rfl⟩)
      simpa [Sys.logStep, Sys.completed, Sys.setLog, rebuilds_eq_nil h.tl_flush] using hcore
    · rcases h.flush_eq hl htl with hempty | ⟨htemp, first, start, span, hflush, htasks⟩
      · have hcore := h.logStep hs hempty.symm rfl s.nrecords
        simpa [Sys.logStep, Sys.completed, Sys.setLog, hempty, callers, rebuilds] using hcore
      · have hcore := h.complete_rebuild hperm htemp hflush htasks b
        simpa [Sys.logStep, Sys.completed, Sys.setLog, hflush, callers, rebuilds] using hcore
  · obtain rfl : l = s.tl := (h.nextUse l hl hne).resolve_right hstate
    rw [heq, Sys.parkIf, if_pos rfl] at hfault ⊢
    rw [Sys.startFlush_setLog] at hfault ⊢
    have hwanted : ∀ x ∈ (s.logs s.tl).nextCompletions, ∀ n, demand s.calls S x n →
        ∃ r ∈ (s.logs s.tl).records, n ∈ r.writes := by
      intro x hx n hn
      obtain ⟨c, rfl⟩ := h.tl_next x hx
      exact (h.wanted hn).2
    have hs : LogStep s S s.tl [.flushComplete s.tl ok]
        (Sys.flushTasks s.tl (s.frames (restartedLog (s.logs s.tl)) space).1) rest s.durable
        (Sys.flushedLog (restartedLog (s.logs s.tl)) (s.frames (restartedLog (s.logs s.tl)) space).1
          (s.frames (restartedLog (s.logs s.tl)) space).2) := by
      refine ⟨hl, hperm, mine_singleton (by simp [Task.mine]), mine_flushTasks s.tl _,
        fun _ hb => hb, ?_, ?_, ?_⟩
      · exact keeps_flushedLog hstate (by rfl) (by rfl) _ _
      · simpa [SafeFault, Sys.park, Sys.frames, Sys.completed, Sys.setLog] using hfault
      · rw [hrest]
        exact hlog.restarted hne hwanted rfl
    have hcore := h.complete_tl hperm hs (.inr ⟨rfl, rfl, hstate⟩)
    refine Core.park_done ?_ hl
    simpa [Sys.logStep, Sys.completed, Sys.setLog, Sys.frames, rebuilds_eq_nil h.tl_flush]
      using hcore

end

end Jerboa.Tfs.Tlog
