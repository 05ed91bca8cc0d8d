import Jerboa.Tfs.Tlog.Compaction
import Mathlib.Data.List.Nodup

/-!
# Flush completions

Every step of the log keeps the invariant, as long as it meets the condition.
So along a run each completion is called once, and with OK only when the updates
before it are on storage.
-/

namespace Jerboa.Tfs.Tlog

open List Lib.Run

variable {s : Sys} {S : List Nat} {m : Nat} {H : List Nat} {l : Nat} {space : List Nat}

/-! ## Records are staged -/

/-- The state when a record is staged and the flags of the log are set. -/
def Sys.staged (s : Sys) (l : Nat) (writes : List Nat) (e : Encoding) : Sys :=
  { s.setLog l (stagedLog (s.logs l) ⟨s.nrecords, e.length, writes⟩ e) with
    nrecords := s.nrecords + 1 }

theorem Sys.logSetDirty_stage (s : Sys) (l : Nat) (writes : List Nat) (e : Encoding)
    (space : List Nat) :
    (s.stage l writes e).logSetDirty l space = (s.staged l writes e, false) ∨
      (s.stage l writes e).logSetDirty l space = (s.staged l writes e).logFlush l none space := by
  have hmark : Sys.markRestaged ((s.stage l writes e).logs l) =
      { (s.stage l writes e).logs l with
        restaged := (s.logs l).restaged || ((s.logs l).flushing ||
            (s.logs l).state = .compacting) } := by
    unfold Sys.markRestaged
    split_ifs with hbusy
    · have hbusy : ((s.logs l).flushing || decide ((s.logs l).state = .compacting)) = true := by
        simpa [Sys.stage, Sys.setLog] using hbusy
      simp [hbusy]
    · have hbusy : ((s.logs l).flushing || decide ((s.logs l).state = .compacting)) = false := by
        simpa [Sys.stage, Sys.setLog] using hbusy
      simp [hbusy, Sys.stage, Sys.setLog]
  unfold Sys.logSetDirty
  simp only [hmark]
  cases hdirty : (s.logs l).dirty with
  | false =>
    left
    simp [Sys.stage, Sys.staged, Sys.setLog, stagedLog, hdirty]
  | true =>
    have hset : (s.stage l writes e).setLog l { (s.stage l writes e).logs l with
        restaged := (s.logs l).restaged ||
          ((s.logs l).flushing || (s.logs l).state = .compacting) } = s.staged l writes e := by
      simp [Sys.stage, Sys.staged, Sys.setLog, stagedLog, hdirty]
    rw [hset]
    split_ifs with hstaged hfull
    · exact .inr rfl
    · exact .inl rfl
    · simp [Sys.stage, Sys.setLog, hdirty] at hstaged

theorem Core.staged (h : Core s S m H) (hl : l < s.nlogs) (writes : List Nat) (e : Encoding) :
    Core (s.staged l writes e) S m H := by
  have hstep : LogStep s S l [] [] s.tasks s.durable
      (stagedLog (s.logs l) ⟨s.nrecords, e.length, writes⟩ e) := by
    refine ⟨hl, .refl _, mine_nil, mine_nil, fun _ hb => hb,
      ⟨fun h => h, .rfl, fun _ h => mem_append_left _ h, ?_⟩, ?_, ?_⟩
    · intro _ hrestaged
      simp only [stagedLog, Bool.or_eq_false_iff] at hrestaged
      exact hrestaged.1
    · intro _ hfaulted hfault
      simp [stagedLog, hfaulted] at hfault
    · simpa using (h.log l hl).staged rfl
  simpa [Sys.logStep, Sys.staged, Sys.setLog] using h.logStep hstep rfl rfl (s.nrecords + 1)

variable {n : Nat} {writes : List Nat}

theorem Sys.staged_has (s : Sys) (l : Nat) (hn : n ∈ writes) (e : Encoding) :
    Has ((s.staged l writes e).logs l) n := by
  refine ⟨⟨s.nrecords, e.length, writes⟩, ?_, hn⟩
  simp [Sys.staged, Sys.setLog, stagedLog]

theorem Core.bump (h : Core s S m H) (hhas : Has (s.logs s.tl) s.writes)
    (hrestaged : s.temp ≠ none → (s.logs s.tl).restaged = true) :
    Core { s with writes := s.writes + 1 } S m H := by
  refine { h with temp := ?_, has := ?_, calls := fun k hk => Nat.le_succ_of_le (h.calls k hk) }
  · intro t ht
    have hc := h.temp t ht
    refine { hc with phase := hc.phase.congr rfl rfl rfl rfl, all := ?_ }
    intro hfalse
    rw [hrestaged (by simp [show s.temp = some t from ht])] at hfalse
    cases hfalse
  · intro n hn
    rcases Nat.lt_succ_iff_lt_or_eq.mp hn with hn | rfl
    · exact h.has n hn
    · exact hhas

theorem Core.grow (h : Core s S m H)
    (happlied : m ∈ s.applied ∨ ∃ t ∈ s.threads, t.cont.writes = some m)
    (hhas : ∀ t, s.temp = some t → Has (s.logs t) m) : Core s S (m + 1) H := by
  refine { h with temp := ?_, applied := ?_ }
  · intro t ht
    have hc := h.temp t ht
    refine { hc with has := ?_ }
    intro n hn
    rcases Nat.lt_succ_iff_lt_or_eq.mp hn with hn | rfl
    · exact hc.has n hn
    · exact hhas t ht
  · intro n hn
    rcases Nat.lt_succ_iff_lt_or_eq.mp hn with hn | rfl
    · exact h.applied n hn
    · exact happlied

variable {rest : List Thread} {t : Thread}

theorem Core.unpark (h : Core s S m H) {applied' : List Nat} (hperm : s.threads.Perm (t :: rest))
    (hsub : ∀ n ∈ s.applied, n ∈ applied') (hwrites : ∀ n, t.cont.writes = some n → n ∈ applied') :
    Core { s with threads := rest, applied := applied' } S m (t.holds s.logs ++ H) := by
  have hmem : ∀ u ∈ rest, u ∈ s.threads :=
    fun u hu => hperm.mem_iff.mpr (mem_cons_of_mem t hu)
  refine { h with
      temp := ?_
      threads := fun u hu => h.threads u (hmem u hu)
      single := ?_
      applied := ?_
      account := ?_ }
  · intro k hk
    have hc := h.temp k hk
    exact { hc with phase := hc.phase.congr rfl rfl rfl rfl }
  · have hlength := (hperm.filter fun u => u.cont.isSwitching).length_eq
    have hle := h.single
    have hrest : (rest.filter fun u => u.cont.isSwitching).length ≤
        ((t :: rest).filter fun u => u.cont.isSwitching).length :=
      ((sublist_cons_self t rest).filter _).length_le
    change (rest.filter fun u => u.cont.isSwitching).length ≤ 1
    omega
  · intro n hn
    rcases h.applied n hn with hn | ⟨u, hu, hcont⟩
    · exact .inl (hsub n hn)
    · rcases mem_cons.mp (hperm.mem_iff.mp hu) with rfl | hu
      · exact .inl (hwrites n hcont)
      · exact .inr ⟨u, hu, hcont⟩
  · have haccount := h.account
    rw [perm_iff_count] at haccount ⊢
    intro a
    have hsum := haccount a
    have hmoved := (hperm.flatMap_right (Thread.holds s.logs)).count_eq a
    unfold waiting at hsum ⊢
    rw [← hsum]
    simp only [count_append, flatMap_cons] at hmoved ⊢
    omega

theorem Core.noSwitching_rest (h : Core s S m H) (hperm : s.threads.Perm (t :: rest))
    (ht : t.cont.isSwitching = true) :
    ∀ u ∈ rest, u.cont.isSwitching = false := by
  have hlength := (hperm.filter fun u => u.cont.isSwitching).length_eq
  have hle := h.single
  simp only [filter_cons, ht, if_true, length_cons] at hlength
  have hempty : (rest.filter fun u => u.cont.isSwitching) = [] :=
    eq_nil_of_length_eq_zero (by omega)
  intro u hu
  have hnot := filter_eq_nil_iff.mp hempty u hu
  simpa using hnot

/-! ## Log writes -/

variable {e : Encoding}

theorem Core.logSetDirty (h : Core (s.staged l writes e) S m H) (hl : l < s.nlogs)
    (hfault : ((s.stage l writes e).logSetDirty l space).2 = true →
      SafeFault (s.staged l writes e) l ((s.stage l writes e).logSetDirty l space).1) :
    Core ((s.stage l writes e).logSetDirty l space).1 S m H := by
  rcases s.logSetDirty_stage l writes e space with heq | heq <;> rw [heq] at hfault ⊢
  · exact h
  · refine h.logFlush_none hl ?_
    cases hparked : ((s.staged l writes e).logFlush l none space).2 with
    | true => exact hfault hparked
    | false =>
      intro _ hfaulted hfault'
      rw [Sys.logFlush_faulted _ hparked, hfaulted] at hfault'
      cases hfault'

theorem Sys.sameFrame_logSetDirty (s : Sys) (l : Nat) (writes : List Nat) (e : Encoding)
    (space : List Nat) :
    SameFrame (s.staged l writes e) ((s.stage l writes e).logSetDirty l space).1 := by
  rcases s.logSetDirty_stage l writes e space with heq | heq <;> rw [heq]
  · exact .refl _
  · exact Sys.sameFrame_logFlush _ _ _ _

theorem Sys.logSetDirty_records (s : Sys) (l k : Nat) (writes : List Nat) (e : Encoding)
    (space : List Nat) :
    (((s.stage l writes e).logSetDirty l space).1.logs k).records =
      ((s.staged l writes e).logs k).records := by
  rcases s.logSetDirty_stage l writes e space with heq | heq <;> rw [heq]
  exact Sys.logFlush_records _ _ _ _ _

theorem Sys.logSetDirty_state (s : Sys) {l : Nat} {space : List Nat}
    (h : ((s.stage l writes e).logSetDirty l space).2 = true) :
    (s.logs l).state ≠ .compacting := by
  rcases s.logSetDirty_stage l writes e space with heq | heq <;> rw [heq] at h
  · cases h
  · have hstate := Sys.logFlush_state _ h
    simpa [Sys.staged, Sys.setLog, stagedLog] using hstate

def SameFailures (s s' : Sys) : Prop := s'.failedWrites.length = s.failedWrites.length

variable {ok : Bool}

theorem Core.finishWrite (h : Core s S n H) (hhas : ∀ t, s.temp = some t → Has (s.logs t) n)
    (hsame : SameFailures s (s.finishWrite n ok)) : Core (s.finishWrite n ok) S (n + 1) H := by
  cases ok with
  | false => simp [SameFailures, Sys.finishWrite] at hsame
  | true =>
    have happly : Core { s with applied := n :: s.applied } S n H := by
      refine { h with temp := ?_, applied := ?_ }
      · intro t ht
        have hc := h.temp t ht
        exact { hc with phase := hc.phase.congr rfl rfl rfl rfl }
      · exact fun k hk => (h.applied k hk).imp_left (mem_cons_of_mem n)
    exact happly.grow (.inl mem_cons_self) hhas

theorem Core.writeTemp (h : Core s S n H) (hsame : SameFailures s (s.writeTemp l n e space)) :
    Core (s.writeTemp l n e space) S (n + 1) H := by
  unfold Sys.writeTemp at hsame ⊢
  split_ifs at hsame ⊢ with hfailed
  · simp [SameFailures, Sys.finishWrite] at hsame
  · cases htemp : s.temp with
    | none =>
      simp only [htemp] at hsame ⊢
      exact h.finishWrite (by simp [htemp]) hsame
    | some t =>
      simp only [htemp] at hsame ⊢
      have hc := h.temp t htemp
      have hcore : Core ((s.stage t [n] e).logSetDirty t space).1 S n H :=
        (h.staged hc.lt [n] e).logSetDirty hc.lt fun _ heq => (hc.ne heq).elim
      have hframe := s.sameFrame_logSetDirty t [n] e space
      have hhas : ∀ k, ((s.stage t [n] e).logSetDirty t space).1.temp = some k →
          Has (((s.stage t [n] e).logSetDirty t space).1.logs k) n := by
        intro k hk
        rw [hframe.temp, show (s.staged t [n] e).temp = some t from htemp] at hk
        cases hk
        unfold Has
        rw [Sys.logSetDirty_records]
        exact s.staged_has t (mem_singleton_self n) e
      split_ifs at hsame ⊢ with haccepts hparked
      · refine (hcore.park_empty ⟨?_, trivial⟩ rfl).grow
          (.inr ⟨⟨t, .loggedTwice t n⟩, ?_, rfl⟩) hhas
        · rw [hframe.nlogs]
          exact hc.lt
        · exact mem_append_right _ (mem_singleton_self _)
      · refine hcore.finishWrite hhas ?_
        unfold SameFailures at hsame ⊢
        rw [hframe.failedWrites]
        exact hsame
      · simp [SameFailures, Sys.finishWrite] at hsame

theorem Core.of_eq {m' : Nat} (h : Core s S m H) (hm : m = m') : Core s S m' H := hm ▸ h

theorem Core.park_logged (h : Core s S n H) (hl : l < s.nlogs) (htemp : s.temp = none)
    (e : Encoding) : Core (s.park l (.logged l n e)) S (n + 1) H := by
  refine (h.park_empty ⟨hl, htemp⟩ rfl).grow (.inr ⟨⟨l, .logged l n e⟩, ?_, rfl⟩) ?_
  · exact mem_append_right _ (mem_singleton_self _)
  · intro t ht
    change s.temp = some t at ht
    simp [htemp] at ht

/-- Failures come only while nothing waits for a flush after the next one. -/
def Safe (s s' : Sys) : Prop := Faults s s' → NextEmpty s

theorem Core.noSwitching (h : Core s S m H) (hempty : NextEmpty s) : NoSwitching s := by
  intro u hu
  obtain ⟨-, hcont⟩ := h.threads u hu
  cases hc : u.cont with
  | done | logged | loggedTwice => rfl
  | switching old =>
    rw [hc] at hcont
    obtain ⟨-, -, hold, -, -, hlength, hi, -⟩ := hcont
    have hzero := hempty old hold
    omega

theorem Core.safeFault {s' : Sys} (h : Core s S m H) (hsafe : Safe s s') (hl : l < s.nlogs)
    (hfaulted : (s.logs l).faulted = false) (hfault : (s'.logs l).faulted = true) :
    NoSwitching s :=
  h.noSwitching (hsafe ⟨l, hl, hfault, hfaulted⟩)

def Sys.counts (s : Sys) : Nat × List Nat := (s.writes, s.calls)

theorem Sys.writes_of_counts {s s' : Sys} (h : s'.counts = s.counts) : s'.writes = s.writes :=
  congrArg Prod.fst h

theorem Sys.SameFrame.counts {s s' : Sys} (h : Sys.SameFrame s s') : s'.counts = s.counts := by
  rw [Sys.counts, h.writes, h.calls]
  rfl

theorem Sys.finishWrite_counts (s : Sys) (n : Nat) (ok : Bool) :
    (s.finishWrite n ok).counts = s.counts := by
  cases ok <;> rfl

theorem Sys.writeTemp_counts (s : Sys) (l n : Nat) (e : Encoding) (space : List Nat) :
    (s.writeTemp l n e space).counts = s.counts := by
  unfold Sys.writeTemp
  split_ifs with hfailed
  · exact s.finishWrite_counts n false
  · cases htemp : s.temp with
    | none => exact s.finishWrite_counts n true
    | some t =>
      have hframe := s.sameFrame_logSetDirty t [n] e space
      dsimp only
      split_ifs
      · exact hframe.counts
      · rw [Sys.finishWrite_counts]
        exact hframe.counts
      · exact s.finishWrite_counts n false

theorem Core.staged_tl (h : Core s S m H) (e : Encoding) :
    Core (({ s with writes := s.writes + 1 } : Sys).staged s.tl [s.writes] e) S m H := by
  refine (h.staged h.tl_lt [s.writes] e).bump (s.staged_has s.tl (mem_singleton_self _) e) ?_
  intro htemp
  have hstate := h.compacting.mpr htemp
  simp [Sys.staged, Sys.setLog, stagedLog, hstate]

theorem Core.write {e e' : Encoding} (h : Core s S s.writes [])
    (hsafe : Safe s (s.write e e' space)) (hsame : SameFailures s (s.write e e' space)) :
    Core (s.write e e' space) S (s.write e e' space).writes [] := by
  have hframe := ({ s with writes := s.writes + 1 } : Sys).sameFrame_logSetDirty s.tl [s.writes] e
    space
  have hthreads : NoSwitching s → NoSwitching
      (({ s with writes := s.writes + 1 } : Sys).staged s.tl [s.writes] e) := fun hnone => hnone
  unfold Sys.write at hsafe hsame ⊢
  dsimp only at hsafe hsame ⊢
  split_ifs at hsafe hsame ⊢ with haccepts hparked
  · have htemp : s.temp = none := by
      by_contra htemp
      exact Sys.logSetDirty_state _ hparked (h.compacting.mpr htemp)
    have hcore := (h.staged_tl e).logSetDirty h.tl_lt fun _ _ hfaulted hfault =>
      hthreads (h.safeFault hsafe h.tl_lt
        (by simpa [Sys.staged, Sys.setLog, stagedLog] using hfaulted) hfault)
    have hpark := hcore.park_logged (Nat.lt_of_lt_of_eq h.tl_lt hframe.nlogs.symm)
      (hframe.temp.trans htemp) e'
    exact hpark.of_eq hframe.writes.symm
  · have hcore := (h.staged_tl e).logSetDirty h.tl_lt fun htrue => (hparked htrue).elim
    rw [Sys.writes_of_counts (Sys.writeTemp_counts _ _ _ _ _), hframe.writes]
    refine hcore.writeTemp ?_
    unfold SameFailures at hsame ⊢
    rw [hframe.failedWrites]
    exact hsame
  · exact h

/-! ## Flushes -/

theorem Core.waiting_lt (h : Core s S m H) {c : Nat}
    (hc : .caller c ∈ (s.logs s.tl).flushCompletions) : c < s.calls.length := by
  rw [← mem_range, ← h.account.mem_iff]
  simp [waiting, mem_callers.mpr hc]

theorem Core.invoked_lt (h : Core s S m H) {call : Nat × Bool} (hcall : call ∈ s.invoked) :
    call.1 < s.calls.length := by
  rw [← mem_range, ← h.account.mem_iff]
  exact mem_append_left _ (mem_append_left _ (mem_map_of_mem hcall))

theorem Core.call (h : Core s S m H) :
    Core { s with calls := s.calls ++ [s.writes] } S m (s.calls.length :: H) := by
  have hgetD : ∀ c < s.calls.length, (s.calls ++ [s.writes]).getD c 0 = s.calls.getD c 0 := by
    intro c hc
    simp [getElem?_append_left hc]
  refine { h with log := ?_, temp := ?_, calls := ?_, ok := ?_, account := ?_ }
  · intro k hk
    refine (h.log k hk).mono (fun _ hb => hb) (.refl _) fun x hx n hn => ?_
    cases x with
    | rebuild => exact hn
    | caller c =>
      obtain rfl := h.inUse k hk c hx
      exact Nat.lt_of_lt_of_eq hn (hgetD c (h.waiting_lt hx))
  · intro t ht
    have hc := h.temp t ht
    refine { hc with phase := hc.phase.congr rfl rfl rfl rfl, waiters := ?_ }
    intro c hx n hn
    exact hc.waiters c hx n (Nat.lt_of_lt_of_eq hn (hgetD c (h.waiting_lt hx)))
  · intro k hk
    rcases mem_append.mp hk with hk | hk
    · exact h.calls k hk
    · exact Nat.le_of_eq (mem_singleton.mp hk)
  · intro call hcall htrue n hn
    exact h.ok call hcall htrue n (Nat.lt_of_lt_of_eq hn (hgetD call.1 (h.invoked_lt hcall)))
  · have haccount := h.account
    rw [perm_iff_count] at haccount ⊢
    intro a
    have hsum := haccount a
    change List.count a (s.invoked.map Prod.fst ++ waiting s ++ s.calls.length :: H) =
      List.count a (List.range (s.calls ++ [s.writes]).length)
    rw [length_append, length_singleton, range_succ]
    simp only [count_append, count_cons, count_nil] at hsum ⊢
    omega

theorem Core.parkIf_done {r : Sys × Bool} (h : Core r.1 S m H) (hl : l < r.1.nlogs) :
    Core (Sys.parkIf r l .done) S m H := by
  unfold Sys.parkIf
  split_ifs
  · exact h.park_done hl
  · exact h

theorem Sys.parkIf_logs (r : Sys × Bool) (l : Nat) (k : Cont) :
    (Sys.parkIf r l k).logs = r.1.logs := by
  unfold Sys.parkIf
  split_ifs <;> rfl

theorem Sys.parkIf_counts (r : Sys × Bool) (l : Nat) (k : Cont) :
    (Sys.parkIf r l k).counts = r.1.counts := by
  unfold Sys.parkIf
  split_ifs <;> rfl

theorem Core.flush (h : Core s S m []) (hfaulted : (s.logs s.tl).faulted = false)
    (hsafe : Safe s (s.step (.flush space))) :
    Core (s.step (.flush space)) S m [] := by
  have hframe := ({ s with calls := s.calls ++ [s.writes] } : Sys).sameFrame_logFlush s.tl
    (some (.caller s.calls.length)) space
  refine Core.parkIf_done (h.call.logFlush_caller hfaulted ?_)
    (Nat.lt_of_lt_of_eq h.tl_lt hframe.nlogs.symm)
  intro _ _ hfault
  refine h.safeFault hsafe h.tl_lt hfaulted ?_
  change ((Sys.parkIf _ _ _).logs _).faulted = true
  rw [Sys.parkIf_logs]
  exact hfault

theorem Core.timer_expired (h : Core s S m []) (hl : l < s.nlogs)
    (hsafe : Safe s (Sys.parkIf ((s.setLog l { s.logs l with timer := false }).logFlush l none
      space) l .done)) :
    Core (Sys.parkIf ((s.setLog l { s.logs l with timer := false }).logFlush l none space) l .done)
      S m [] := by
  have hframe := (s.setLog l { s.logs l with timer := false }).sameFrame_logFlush l none space
  refine Core.parkIf_done ((h.timer hl false).logFlush_none hl ?_)
    (Nat.lt_of_lt_of_eq hl hframe.nlogs.symm)
  intro _ hfaulted hfault
  refine h.safeFault hsafe hl (by simpa [Sys.setLog] using hfaulted) ?_
  rw [Sys.parkIf_logs]
  exact hfault

/-! ## Tasks -/

theorem perm_eraseIdx {α : Type} {xs : List α} {i : Nat} {x : α} (h : xs[i]? = some x) :
    xs.Perm (x :: xs.eraseIdx i) := by
  obtain ⟨hi, rfl⟩ := List.getElem?_eq_some_iff.mp h
  exact (List.getElem_cons_eraseIdx_perm hi).symm

theorem Core.failed {t : Task} {rest : List Task} (h : Core s S m H)
    (hperm : s.tasks.Perm ([t] ++ rest)) (hmine : t.mine l = true) (hstorage : t.isStorage = true)
    (hsafe : Safe s (({ s with tasks := rest } : Sys).mergeJoin l false)) :
    Core (({ s with tasks := rest } : Sys).mergeJoin l false) S m H := by
  have hl := h.lt_of_mine (hperm.mem_iff.mpr (by simp)) hmine
  have hempty : (s.logs l).faulted = false → NextEmpty s := by
    intro hfaulted
    refine hsafe ⟨l, hl, ?_, hfaulted⟩
    simp [Sys.mergeJoin, Sys.setLog, Sys.joinedLog]
  refine h.join_failed hperm hmine hstorage ?_ fun hfaulted => h.noSwitching (hempty hfaulted)
  by_contra hne
  obtain ⟨-, hfaulted, -⟩ := (h.log l hl).next hne
  exact hne (eq_nil_of_length_eq_zero (hempty hfaulted l hl))

theorem Sys.logFlushRestaged_counts (s : Sys) (l : Nat) (space : List Nat) :
    (s.logFlushRestaged l space).1.counts = s.counts := by
  unfold Sys.logFlushRestaged
  dsimp only
  split_ifs
  · rfl
  · exact (Sys.sameFrame_logFlush _ _ _ _).counts
  · rfl

theorem Sys.switchLoop_counts (s : Sys) (old used : Nat) (space : List Nat) (i left : Nat) :
    (s.switchLoop old used space i left).counts = s.counts := by
  induction left generalizing s i with
  | zero =>
    simp only [Sys.switchLoop]
    split_ifs
    · rw [Sys.parkIf_counts, Sys.logFlushRestaged_counts]
      rfl
    · rfl
  | succ left ih =>
    have hframe := s.sameFrame_logFlush used (s.logs old).nextCompletions[i]? space
    simp only [Sys.switchLoop]
    split_ifs
    · exact hframe.counts
    · rw [ih]
      exact hframe.counts

theorem Sys.runTask_counts (s : Sys) (ok : Bool) (space : List Nat) (t : Task) :
    (s.runTask ok space t).counts = s.counts := by
  cases t with
  | storage w handler =>
    cases handler with
    | join => rfl
    | link => cases ok <;> rfl
    | switch => exact Sys.switchLoop_counts _ _ _ _ _ _
  | flushComplete =>
    simp only [Sys.runTask, Sys.logFlushComplete]
    rw [Sys.parkIf_counts, Sys.logFlushRestaged_counts]
    rfl
  | rebuildComplete old new first start span ok =>
    cases ok with
    | true => rfl
    | false => exact Sys.switchLoop_counts _ _ _ _ _ _

section

variable (h : Core s S s.writes [])
include h

theorem Core.switch {w : Write Byte} {old new : Nat} {rest : List Task}
    (hperm : s.tasks.Perm ([.storage w (.switch old new)] ++ rest))
    (hcalm : CalmSwitch s ok (.storage w (.switch old new)))
    (hsafe : Safe s (({ s with tasks := rest } : Sys).runTask ok space
      (.storage w (.switch old new)))) :
    Core (({ s with tasks := rest } : Sys).runTask ok space (.storage w (.switch old new))) S
      s.writes [] := by
  obtain ⟨t, htemp, hflush, hrest, htask⟩ := h.compaction_task hperm rfl
  rcases htask with ⟨first, start, span, done, heq, -⟩ | ⟨w', heq, hS⟩
  · cases heq
  cases heq
  have hfaulted : (s.logs s.tl).nextCompletions ≠ [] → (s.logs new).faulted = false := by
    intro hne
    rcases hcalm with hempty | ⟨-, hfaulted⟩
    · exact (hne (eq_nil_of_length_eq_zero hempty)).elim
    · exact hfaulted
  have hswitching : Switching s S s.writes (.storage w (.switch s.tl new)) rest new
      (if ok then w :: s.durable else s.durable) ok := by
    refine ⟨hperm, rfl, htemp, hflush, hrest, ?_, fun _ => hS, ?_, Nat.le_refl _⟩
    · intro b hb
      split_ifs
      · exact stored_cons w b hb
      · exact hb
    · rintro rfl
      rcases hcalm with hempty | ⟨hfalse, -⟩
      · exact eq_nil_of_length_eq_zero hempty
      · cases hfalse
  refine h.logSwitchComplete hswitching hfaulted fun hne => ?_
  by_contra hfault
  have hempty := hsafe ⟨new, (h.temp new htemp).lt, Bool.of_not_eq_false hfault, hfaulted hne⟩
  exact hne (eq_nil_of_length_eq_zero (hempty s.tl h.tl_lt))

theorem Core.rebuild_failed {old new : Nat} {first : Ext Byte} {start span : Nat} {rest : List Task}

    (hperm : s.tasks.Perm ([.rebuildComplete old new first start span false] ++ rest))
    (hcalm : CalmSwitch s ok (.rebuildComplete old new first start span false)) :
    Core (({ s with tasks := rest } : Sys).logSwitchComplete old new false space) S
      s.writes [] := by
  obtain ⟨t, htemp, hflush, hrest, htask⟩ := h.compaction_task hperm rfl
  rcases htask with ⟨first', start', span', done, heq, -⟩ | ⟨w', heq, -⟩
  · cases heq
    have hempty : (s.logs s.tl).nextCompletions = [] := by
      rcases hcalm with hempty | hfalse
      · exact eq_nil_of_length_eq_zero hempty
      · cases hfalse
    have hswitching : Switching s S s.writes (.rebuildComplete s.tl new first start span false) rest
        new s.durable false :=
      ⟨hperm, rfl, htemp, hflush, hrest, fun _ hb => hb, nofun,
        fun _ => hempty, Nat.le_refl _⟩
    exact h.logSwitchComplete hswitching (fun hne => (hne hempty).elim)
      fun hne => (hne hempty).elim
  · cases heq

theorem Core.runTask {t : Task} {rest : List Task}
    (hperm : s.tasks.Perm ([t] ++ rest)) (hcalm : CalmSwitch s ok t)
    (hsafe : Safe s (({ s with tasks := rest } : Sys).runTask ok space t)) :
    Core (({ s with tasks := rest } : Sys).runTask ok space t) S s.writes [] := by
  cases t with
  | storage w handler =>
    cases handler with
    | join =>
      cases ok with
      | true => exact h.join hperm
      | false => exact h.failed hperm (by simp [Task.mine]) rfl hsafe
    | link =>
      cases ok with
      | true => exact h.link hperm
      | false => exact h.failed hperm (by simp [Task.mine]) rfl hsafe
    | switch => exact h.switch hperm hcalm hsafe
  | flushComplete =>
    have hl := (h.log_complete hperm).1
    exact h.logFlushComplete hperm fun _ => h.safeFault hsafe hl
  | rebuildComplete old new first start span done =>
    cases done with
    | true => exact h.rebuilt hperm
    | false => exact h.rebuild_failed hperm hcalm

end

/-! ## Threads -/

theorem Sys.finishWrite_eq (hsame : SameFailures s (s.finishWrite n ok)) :
    s.finishWrite n ok = { s with applied := n :: s.applied } := by
  cases ok with
  | false => simp [SameFailures, Sys.finishWrite] at hsame
  | true => rfl

theorem Core.proceed (h : Core s S m []) (hperm : s.threads.Perm (t :: rest))
    (hsafe : Safe s (({ s with threads := rest } : Sys).proceed space t.cont))
    (hsame : SameFailures s (({ s with threads := rest } : Sys).proceed space t.cont)) :
    Core (({ s with threads := rest } : Sys).proceed space t.cont) S m [] := by
  obtain ⟨hlt, hinv⟩ := h.threads t (hperm.mem_iff.mpr mem_cons_self)
  have hunpark : t.cont.isSwitching = false → ∀ applied', (∀ n ∈ s.applied, n ∈ applied') →
      (∀ n, t.cont.writes = some n → n ∈ applied') →
      Core { s with threads := rest, applied := applied' } S m [] := by
    intro hnot applied' hsub hwrites
    have hcore := h.unpark hperm hsub hwrites
    rwa [Thread.holds_eq_nil hnot] at hcore
  cases hc : t.cont with
  | done =>
    rw [hc] at hunpark
    exact hunpark rfl s.applied (fun _ hn => hn) nofun
  | logged l n e =>
    rw [hc] at hinv hunpark hsame
    have heq : ({ s with threads := rest } : Sys).proceed space (.logged l n e) =
        { s with threads := rest, applied := n :: s.applied } := by
      simp only [Sys.proceed, Sys.writeTemp, show s.temp = none from hinv] at hsame ⊢
      split_ifs at hsame ⊢
      · exact Sys.finishWrite_eq hsame
      · rfl
    rw [heq]
    exact hunpark rfl _ (fun _ hn => mem_cons_of_mem _ hn) fun k hk => by
      cases hk
      exact mem_cons_self
  | loggedTwice l n =>
    rw [hc] at hunpark hsame
    have heq : ({ s with threads := rest } : Sys).proceed space (.loggedTwice l n) =
        { s with threads := rest, applied := n :: s.applied } := Sys.finishWrite_eq hsame
    rw [heq]
    exact hunpark rfl _ (fun _ hn => mem_cons_of_mem _ hn) fun k hk => by
      cases hk
      exact mem_cons_self
  | switching old used i left =>
    rw [hc] at hinv hsafe
    obtain ⟨hused, htemp, hold, hne, hstate, hlength, hi, hfaulted⟩ := hinv
    have hcore : Core { s with threads := rest, applied := s.applied } S m (t.holds s.logs ++ []) :=
      h.unpark hperm (fun _ hn => hn) (by simp [hc, Cont.writes])
    have hholds : t.holds s.logs = callers ((s.logs old).nextCompletions.drop i) := by
      simp [Thread.holds, hc]
    rw [hholds, append_nil] at hcore
    refine hcore.switchLoop left hused hold hne hstate htemp hlength
      (h.noSwitching_rest hperm (by simp [hc, Cont.isSwitching])) (fun _ => hused ▸ hfaulted)
      fun _ => ?_
    by_contra hfault
    have hempty := hsafe ⟨used, hused ▸ h.tl_lt, Bool.of_not_eq_false hfault, hused ▸ hfaulted⟩
    have hzero := hempty old hold
    omega

theorem Sys.proceed_counts (s : Sys) (space : List Nat) (k : Cont) :
    (s.proceed space k).counts = s.counts := by
  cases k with
  | done => rfl
  | logged l n e => exact s.writeTemp_counts l n e space
  | loggedTwice l n => exact s.finishWrite_counts n _
  | switching old used i left => exact s.switchLoop_counts old used space i left

theorem Core.resume {start : Option Nat} {image : Encoding} {volume : List UInt8}
    (h : Core s S s.writes []) (hperm : s.threads.Perm (t :: rest))
    (hcalm : start.isSome = true → Sys.compactionDue (s.logs t.log) = true →
      ∀ u ∈ s.threads, u.cont.isDone = true)
    (hsafe : Safe s (({ s with threads := rest } : Sys).resume t start image volume space))
    (hsame : SameFailures s
      (({ s with threads := rest } : Sys).resume t start image volume space)) :
    ∃ S', Core (({ s with threads := rest } : Sys).resume t start image volume space) S'
      (({ s with threads := rest } : Sys).resume t start image volume space).writes [] := by
  have hproceed : Safe s (({ s with threads := rest } : Sys).proceed space t.cont) →
      SameFailures s (({ s with threads := rest } : Sys).proceed space t.cont) →
      Core (({ s with threads := rest } : Sys).proceed space t.cont) S
        (({ s with threads := rest } : Sys).proceed space t.cont).writes [] := by
    intro hsafe hsame
    rw [Sys.writes_of_counts (Sys.proceed_counts _ _ _)]
    exact h.proceed hperm hsafe hsame
  unfold Sys.resume at hsafe hsame ⊢
  split_ifs at hsafe hsame ⊢ with hdue
  · cases start with
    | none => exact ⟨S, hproceed hsafe hsame⟩
    | some start =>
      have hdone := hcalm rfl hdue
      have ht := hperm.mem_iff.mpr mem_cons_self
      have hcont : t.cont = .done := Cont.eq_done (hdone t ht)
      have hlinked : (s.logs t.log).state = .linked := by
        simp only [Sys.compactionDue, Bool.and_eq_true, decide_eq_true_eq] at hdue
        exact hdue.1.1
      have htl : t.log = s.tl := h.linked t.log (h.threads t ht).1 hlinked
      have hcore : Core { s with threads := rest } S s.writes [] := by
        have hunpark := h.unpark (t := t) hperm (fun _ hn => hn) (by simp [hcont, Cont.writes])
        rwa [Thread.holds_eq_nil (by simp [hcont, Cont.isSwitching])] at hunpark
      rw [htl] at hlinked ⊢
      have hcompact : Core (Sys.compacting start image volume { s with threads := rest } space)
          s.applied s.writes [] :=
        hcore.compact (Nat.le_refl _) hlinked
          fun u hu => hdone u (hperm.mem_iff.mpr (mem_cons_of_mem _ hu))
      dsimp only
      rw [Sys.compact_eq start image volume { s with threads := rest }, if_pos rfl, hcont]
      exact ⟨_, hcompact.park_done (Nat.lt_succ_self _)⟩
  · exact ⟨S, hproceed hsafe hsame⟩

theorem Sys.compact_counts (s : Sys) (l start : Nat) (image : Encoding) (volume : List UInt8)
    (space : List Nat) : (s.compact l start image volume space).1.counts = s.counts := by
  refine (Sys.sameFrame_logFlush _ _ _ _).counts.trans ?_
  exact (Sys.sameFrame_logSetDirty _ _ _ _ _).counts

theorem Sys.resume_counts (s : Sys) (t : Thread) (start : Option Nat) (image : Encoding)
    (volume : List UInt8) (space : List Nat) :
    (s.resume t start image volume space).counts = s.counts := by
  unfold Sys.resume
  split_ifs
  · cases start with
    | none => exact s.proceed_counts space t.cont
    | some start =>
      have hcompact := s.compact_counts t.log start image volume space
      dsimp only
      split_ifs
      · exact hcompact
      · rw [Sys.proceed_counts]
        exact hcompact
  · exact s.proceed_counts space t.cont

/-! ## Runs -/

theorem Sys.flush_counts (s : Sys) (space : List Nat) :
    (s.step (.flush space)).counts = (s.writes, s.calls ++ [s.writes]) := by
  simp only [Sys.step]
  rw [Sys.parkIf_counts]
  exact (Sys.sameFrame_logFlush _ _ _ _).counts

theorem Sys.step_counts (s : Sys) (a : Sys.Action) :
    (s.step a).counts = s.counts ∨
      ((∃ e e' space, a = .write e e' space) ∧ (s.step a).counts = (s.writes + 1, s.calls)) ∨
      ((∃ space, a = .flush space) ∧ (s.step a).counts = (s.writes, s.calls ++ [s.writes])) := by
  cases a with
  | write e e' space =>
    have hframe := ({ s with writes := s.writes + 1 } : Sys).sameFrame_logSetDirty s.tl
      [s.writes] e space
    simp only [Sys.step, Sys.write]
    split_ifs
    · exact .inr (.inl ⟨⟨e, e', space, rfl⟩, hframe.counts⟩)
    · rw [Sys.writeTemp_counts]
      exact .inr (.inl ⟨⟨e, e', space, rfl⟩, hframe.counts⟩)
    · exact .inl rfl
  | flush space =>
    exact .inr (.inr ⟨⟨space, rfl⟩, s.flush_counts space⟩)
  | timer =>
    left
    simp only [Sys.step]
    split_ifs
    · rw [Sys.parkIf_counts]
      exact (Sys.sameFrame_logFlush _ _ _ _).counts
    · rfl
  | task i =>
    left
    simp only [Sys.step]
    cases s.tasks[i]? with
    | none => rfl
    | some => exact Sys.runTask_counts _ _ _ _
  | resume i =>
    left
    simp only [Sys.step]
    cases s.threads[i]? with
    | none => rfl
    | some => exact Sys.resume_counts _ _ _ _ _ _

def Inv (s : Sys) : Prop := ∃ S, Core s S s.writes []

theorem Inv.step {a : Sys.Action} (h : Inv s) (hcalm : Calm s a) : Inv (s.step a) := by
  obtain ⟨S, hcore⟩ := h
  obtain ⟨haction, hsafe, hsame⟩ := hcalm
  cases a with
  | write => exact ⟨S, hcore.write hsafe hsame⟩
  | flush space =>
    have hframe := ({ s with calls := s.calls ++ [s.writes] } : Sys).sameFrame_logFlush s.tl
      (some (.caller s.calls.length)) space
    refine ⟨S, (hcore.flush haction hsafe).of_eq ?_⟩
    simp only [Sys.step]
    rw [Sys.writes_of_counts (Sys.parkIf_counts _ _ _), hframe.writes]
  | timer l space =>
    simp only [Sys.step] at hsafe ⊢
    split_ifs at hsafe ⊢ with hexpired
    · have hframe := (s.setLog l { s.logs l with timer := false }).sameFrame_logFlush l none space
      refine ⟨S, (hcore.timer_expired hexpired.1 hsafe).of_eq ?_⟩
      rw [Sys.writes_of_counts (Sys.parkIf_counts _ _ _), hframe.writes]
      rfl
    · exact ⟨S, hcore⟩
  | task i =>
    simp only [Sys.step] at hsafe ⊢
    cases ht : s.tasks[i]? with
    | none => exact ⟨S, hcore⟩
    | some t =>
      simp only [ht] at hsafe ⊢
      refine ⟨S, (hcore.runTask (perm_eraseIdx ht) (haction t (by simp [ht])) hsafe).of_eq ?_⟩
      rw [Sys.writes_of_counts (Sys.runTask_counts _ _ _ _)]
  | resume i =>
    simp only [Sys.step] at hsafe hsame ⊢
    cases ht : s.threads[i]? with
    | none => exact ⟨S, hcore⟩
    | some t =>
      simp only [ht] at hsafe hsame ⊢
      exact hcore.resume (perm_eraseIdx ht) (haction t (by simp [ht])) hsafe hsame

theorem Inv.mounted (version : Version) (start span replayed : Nat) (oldEncoding : Bool)
    (extensions : List (Nat × Nat)) (totalEntries obsoleteEntries : Nat) :
    Inv (Sys.mounted version start span replayed oldEncoding extensions totalEntries
      obsoleteEntries) := by
  refine ⟨[], ?_⟩
  have hlog : ∀ D, LogInv D [] [] ((Sys.mounted version start span replayed oldEncoding extensions
      totalEntries obsoleteEntries).logs 0) :=
    fun D => LogInv.empty rfl rfl rfl (Nat.zero_le _) rfl rfl rfl
  constructor
  · exact Nat.zero_lt_one
  · exact fun l _ => hlog _
  · exact fun _ _ => rfl
  · exact fun l hl _ => Nat.lt_one_iff.mp hl
  · simp [Sys.mounted]
  · exact fun l hl c hx => (not_mem_nil hx).elim
  · exact fun l hl _ _ _ _ _ hx => (not_mem_nil hx).elim
  · exact fun l hl _ _ _ _ _ hx => (not_mem_nil hx).elim
  · exact fun l hl hne => (hne rfl).elim
  · exact nofun
  · exact fun _ => rfl
  · exact fun n hn => (Nat.not_lt_zero n hn).elim
  · exact fun k hk => (not_mem_nil hk).elim
  · exact fun t ht => (not_mem_nil ht).elim
  · exact Nat.zero_le _
  · exact fun n hn => (Nat.not_lt_zero n hn).elim
  · exact fun call hcall => (not_mem_nil hcall).elim
  · exact .refl _

theorem Inv.waiting_eq_nil (h : Inv s) (htasks : s.tasks = []) (hthreads : s.threads = []) :
    waiting s = [] := by
  obtain ⟨S, hcore⟩ := h
  have hlog := hcore.log s.tl hcore.tl_lt
  have htemp : s.temp = none := by
    by_contra htemp
    obtain ⟨t, ht⟩ := Option.ne_none_iff_exists'.mp htemp
    have hc := hcore.temp t ht
    cases hc.phase with
    | flushing first start span hflush =>
      -- the new log would be idle with a waiter
      have hnew := hcore.log t hc.lt
      rw [htasks] at hnew
      have hbusy := hnew.waiters (by simp [hflush])
      rcases hbusy with hflushing | hstate
      · exact hnew.shape.flushing_iff.mp hflushing rfl
      · exact hc.state hstate
    | rebuilt first start span ok _ hone | linking w _ hone => simp [htasks] at hone
  have hstate : (s.logs s.tl).state ≠ .compacting := fun hstate => hcore.compacting.mp hstate htemp
  have hflushing : (s.logs s.tl).flushing = false := by
    rw [htasks] at hlog
    by_contra hflushing
    exact hlog.shape.flushing_iff.mp (by simpa using hflushing) rfl
  obtain ⟨hflush, hnext⟩ := hlog.no_waiters hflushing hstate
  exact Tlog.waiting_eq_nil hflush hnext (by simp [hthreads])

theorem Inv.calledOnce (h : Inv s) : CalledOnce s := by
  intro c hc
  obtain ⟨S, hcore⟩ := id h
  have hcount := hcore.account.count_eq c
  have hone : (List.range s.calls.length).count c = 1 :=
    count_eq_one_of_mem nodup_range (mem_range.mpr hc)
  rw [hone, append_nil, count_append] at hcount
  refine ⟨by omega, ?_⟩
  rintro ⟨htasks, hthreads⟩
  have hwaiting := h.waiting_eq_nil (eq_nil_of_length_eq_zero htasks)
    (eq_nil_of_length_eq_zero hthreads)
  rw [hwaiting, count_nil] at hcount
  omega

theorem Inv.written (h : Inv s) {c n : Nat} (hc : (c, true) ∈ s.invoked)
    (hn : n < s.calls.getD c 0) : n < s.writes ∧ WrittenIn s s.tl n := by
  obtain ⟨S, hcore⟩ := h
  refine ⟨?_, (hcore.ok (c, true) hc rfl n hn).1⟩
  rw [getD_eq_getElem?_getD] at hn
  cases hcall : s.calls[c]? with
  | none => simp [hcall] at hn
  | some k =>
    rw [hcall, Option.getD_some] at hn
    exact Nat.lt_of_lt_of_le hn (hcore.calls k (mem_of_getElem? hcall))

/-- In every run of a mounted volume whose steps meet the condition, in every
state reached: a completion was called with OK only if every update staged
before its `log_flush` was written by storage writes that succeeded, and no
completion was called twice or is lost. -/
theorem flush_completions (version : Version) (start span replayed : Nat) (oldEncoding : Bool)
    (extensions : List (Nat × Nat)) (totalEntries obsoleteEntries : Nat) (as : List Sys.Action)
    (hcalm : AllSteps Sys.step Calm (Sys.mounted version start span replayed oldEncoding extensions
      totalEntries obsoleteEntries) as) :
    OkIfWritten (run Sys.step (Sys.mounted version start span replayed oldEncoding extensions
        totalEntries obsoleteEntries) as) ∧
      CalledOnce (run Sys.step (Sys.mounted version start span replayed oldEncoding extensions
        totalEntries obsoleteEntries) as) := by
  have hinv := run_invariant_of_allSteps (fun _ _ h hcalm => Inv.step h hcalm)
    (Inv.mounted version start span replayed oldEncoding extensions totalEntries obsoleteEntries)
    hcalm
  obtain ⟨S, hcore⟩ := id hinv
  refine ⟨fun call hcall htrue n hn => ?_, hinv.calledOnce⟩
  exact ⟨_, hcore.tl_lt, (hcore.ok call hcall htrue n hn).1⟩

def smallUpdate : Encoding := ⟨3, 1, 0, by decide⟩

/-- A mounted volume whose log is to be compacted: its one extension is at
sector 8 and was read up to byte 40. -/
def dueVolume : Sys := Sys.mounted .v6 8 16 40 false [(8, 16)] 8192 8192

/-- The thread of a flush starts a compaction, and a record is staged and its
flush requested before it ends. -/
def compactionRun : List Sys.Action :=
  [.write smallUpdate smallUpdate [], .flush [], .resume 0 (some 100) smallUpdate [] [],
    .write smallUpdate smallUpdate [], .flush []]

/-- The compaction succeeds, and the second completion is handed over. -/
def switchedRun : List Sys.Action :=
  compactionRun ++ List.replicate 9 (.task 0 true []) ++
    [.resume 0 none smallUpdate [] [], .resume 0 none smallUpdate [] []]

theorem flush_completions_switched :
    (run Sys.step dueVolume switchedRun).invoked = [(0, true), (1, true)] ∧
      OkIfWritten (run Sys.step dueVolume switchedRun) ∧
      CalledOnce (run Sys.step dueVolume switchedRun) :=
  ⟨by decide +kernel, flush_completions .v6 8 16 40 false [(8, 16)] 8192 8192 switchedRun
    (by decide +kernel)⟩

/-- In such a run the log in use has a record of every update, through compactions and
switches, and they are all on storage when nothing is staged or in flight. -/
theorem updates_kept (version : Version) (start span replayed : Nat) (oldEncoding : Bool)
    (extensions : List (Nat × Nat)) (totalEntries obsoleteEntries : Nat) (as : List Sys.Action) :
    let s₀ := Sys.mounted version start span replayed oldEncoding extensions totalEntries
      obsoleteEntries
    let s := run Sys.step s₀ as
    AllSteps Sys.step Calm s₀ as →
    (∀ n < s.writes, Has (s.logs s.tl) n) ∧
      (s.tasks = [] → (s.logs s.tl).faulted = false → (s.logs s.tl).tupleStaging = [] →
        ∀ n < s.writes, WrittenIn s s.tl n) := by
  intro s₀ s hcalm
  obtain ⟨S, hcore⟩ : Inv s :=
    run_invariant_of_allSteps (fun _ _ h hcalm => h.step hcalm) (Inv.mounted ..) hcalm
  refine ⟨hcore.has, fun htasks hfaulted hstaging n hn => ?_⟩
  obtain ⟨r, hr, hmem⟩ := hcore.has n hn
  refine ⟨r, hr, hmem, fun b hb => ?_⟩
  rcases ((hcore.log s.tl hcore.tl_lt).sound hfaulted).sent r hr b hb with hb | hb | ⟨t, ht, -⟩
  · rw [hstaging] at hb
    cases hb
  · exact hb
  · rw [htasks] at ht
    cases ht

theorem updates_kept_switched :
    ∀ n < (run Sys.step dueVolume switchedRun).writes,
      WrittenIn (run Sys.step dueVolume switchedRun) (run Sys.step dueVolume switchedRun).tl n :=
  (updates_kept .v6 8 16 40 false [(8, 16)] 8192 8192 switchedRun (by decide +kernel)).2
    (List.length_eq_zero_iff.mp (by decide +kernel)) (by decide +kernel) (by decide +kernel)

/-- A storage write fails and its flush reports the error.  The log is no longer
dirty then, so the next `log_flush` returns OK at once, although the update was
never written. -/
def failedRun : List Sys.Action :=
  [.write smallUpdate smallUpdate [], .flush [], .task 0 false [], .task 0 true [], .flush []]

/-- The flush of the new log fails while the old log's is under way.  The second
completion goes back to the list that `log_switch_complete` clears. -/
def lostRun : List Sys.Action :=
  compactionRun ++ [.task 1 false [], .task 1 true [], .task 1 true [], .task 0 true [],
    .task 0 true [], .resume 0 none smallUpdate [] []]

theorem ok_or_lost_after_failure :
    ¬OkIfWritten (run Sys.step dueVolume failedRun) ∧
      ¬CalledOnce (run Sys.step dueVolume lostRun) := by
  constructor <;> decide +kernel

end Jerboa.Tfs.Tlog
