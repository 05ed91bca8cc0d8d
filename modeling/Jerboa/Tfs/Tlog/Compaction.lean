import Jerboa.Tfs.Tlog.Complete

/-!
# Compactions

A compaction replaces the log under those who wait for a flush of it.  When it
starts, the new log has every update that the tree in memory has; when it ends,
the waiters are called or handed over to the log that is then in use.
-/

namespace Jerboa.Tfs.Tlog

open List Function

variable {s : Sys} {S : List Nat} {m : Nat} {H : List Nat} {l : Nat} {t : Task} {rest : List Task}
  {space : List Nat}

theorem Core.compaction_task (h : Core s S m H) (hperm : s.tasks.Perm ([t] ++ rest))
    (ht : t.isCompaction = true) :
    ∃ new, s.temp = some new ∧ (s.logs new).flushCompletions = [] ∧
      rest.filter Task.isCompaction = [] ∧
      ((∃ first start span ok, t = .rebuildComplete s.tl new first start span ok ∧
          (ok = true → ∀ n ∈ S, WrittenIn s new n)) ∨
        ∃ w, t = .storage w (.switch s.tl new) ∧ ∀ n ∈ S, WrittenIn s new n) := by
  have hfilter := hperm.filter Task.isCompaction
  rw [filter_append, filter_singleton, ht] at hfilter
  have hlength := hfilter.length_eq
  have htemp : s.temp ≠ none := by
    intro hnone
    simp [h.noTemp hnone] at hlength
  obtain ⟨new, hnew⟩ := Option.ne_none_iff_exists'.mp htemp
  refine ⟨new, hnew, ?_⟩
  cases (h.temp new hnew).phase with
  | flushing first start span hflush htasks => simp [htasks] at hlength
  | rebuilt first start span ok hflush htasks hS =>
    rw [htasks] at hfilter
    have hone := singleton_perm.mp hfilter
    simp only [cond_true, singleton_append, List.cons.injEq] at hone
    exact ⟨hflush, hone.2.symm, .inl ⟨first, start, span, ok, hone.1.symm, hS⟩⟩
  | linking w hflush htasks hS =>
    rw [htasks] at hfilter
    have hone := singleton_perm.mp hfilter
    simp only [cond_true, singleton_append, List.cons.injEq] at hone
    exact ⟨hflush, hone.2.symm, .inr ⟨w, hone.1.symm, hS⟩⟩

theorem Task.not_mine_of_isCompaction (ht : t.isCompaction = true) (k : Nat) :
    t.mine k = false := by
  by_contra hmine
  simp [Task.not_isCompaction_of_mine (Bool.not_eq_false _ ▸ hmine)] at ht

theorem filter_mine_rest (hperm : s.tasks.Perm ([t] ++ rest)) (ht : t.isCompaction = true)
    (k : Nat) : (s.tasks.filter (Task.mine k)).Perm (rest.filter (Task.mine k)) := by
  have hfilter := hperm.filter (Task.mine k)
  rwa [filter_append, filter_singleton, Task.not_mine_of_isCompaction ht] at hfilter

theorem Shell.tasks (s : Sys) (tasks : List Task) : Shell s { s with tasks := tasks } :=
  ⟨rfl, rfl, rfl, rfl, rfl, rfl, rfl, fun _ hb => hb, fun _ => Keeps.refl _, fun _ _ _ hx => hx,
    fun _ _ => rfl, fun _ hx => .inl hx, fun _ hx => .inl hx⟩

variable {old new : Nat}

theorem Core.rebuilt (h : Core s S m H) {first : Ext Byte} {start span : Nat}
    (hperm : s.tasks.Perm ([.rebuildComplete old new first start span true] ++ rest)) :
    Core { s with tasks := rest ++
      [.storage (first.push (.link start span)).flush (.switch old new)] } S m H := by
  obtain ⟨t, htemp, hflush, hrest, htask⟩ := h.compaction_task hperm rfl
  have hS : old = s.tl ∧ new = t ∧ ∀ n ∈ S, WrittenIn s t n := by
    rcases htask with ⟨first', start', span', ok, heq, hS⟩ | ⟨w, heq, -⟩
    · cases heq
      exact ⟨rfl, rfl, hS rfl⟩
    · cases heq
  obtain ⟨rfl, rfl, hS⟩ := hS
  have hmine : ∀ k, (rest ++ [Task.storage (first.push (.link start span)).flush
      (.switch s.tl new)]).filter (Task.mine k) = rest.filter (Task.mine k) := by
    intro k
    simp [filter_append, Task.mine]
  refine h.frame (Shell.tasks s _) (fun _ _ _ _ _ _ _ hf => hf) ?_ ?_ ?_ ?_ ?_ ?_ h.account
  · intro k hk
    rw [hmine]
    exact (h.log k hk).mono (fun _ hb => hb) (filter_mine_rest hperm rfl k) fun _ _ _ hn => hn
  · intro k hk
    rw [hmine]
    have hnil := filter_mine_rest hperm rfl k
    rw [h.fresh k hk] at hnil
    exact nil_perm.mp hnil
  · intro k hk
    rw [htemp] at hk
    cases hk
    refine .linking (first.push (.link start span)).flush hflush ?_ hS
    simp [filter_append, hrest, Task.isCompaction]
  · intro hnone
    simp [htemp] at hnone
  · exact fun _ => (h.temp new htemp).waiters
  · exact h.ok

/-! ## The switch -/

theorem Sys.switched_eq (s : Sys) (hne : old ≠ new) (ok : Bool) :
    s.switched old new ok =
      { s with
        logs := fun k => { s.logs k with
          state := if k = (if ok then new else old) then .linked else (s.logs k).state
          destroyed := if k = (if ok then old else new) then true else (s.logs k).destroyed
          flushCompletions := if k = old then [] else (s.logs k).flushCompletions }
        tl := if ok then new else old
        temp := none
        tasks := s.tasks ++ rebuilds ok (s.logs old).flushCompletions
        invoked := s.invoked ++ (callers (s.logs old).flushCompletions).map (·, ok)
        released := s.released ++ (s.logs (if ok then old else new)).extensions } := by
  have hlogs : (s.switched old new ok).logs = fun k => { s.logs k with
      state := if k = (if ok then new else old) then .linked else (s.logs k).state
      destroyed := if k = (if ok then old else new) then true else (s.logs k).destroyed
      flushCompletions := if k = old then [] else (s.logs k).flushCompletions } := by
    funext k
    simp only [Sys.switched, Sys.runFlushCompletions, Sys.setLog, Sys.invoke]
    by_cases hold : k = old
    · subst hold
      cases ok <;> simp [hne]
    · by_cases hnew : k = new
      · subst hnew
        cases ok <;> simp [hold]
      · cases ok <;> simp [hold, hnew]
  rw [← hlogs]
  cases ok <;> simp [Sys.switched, Sys.runFlushCompletions, Sys.setLog, Sys.invoke, hne,
    Ne.symm hne]

variable {tl : Log}

theorem LogInv.relabel {D : Completion → Nat → Prop} {durable : List (Write Byte)} {ts : List Task}
    (h : LogInv D durable ts tl) (state : LogState) (destroyed : Bool) {cs : List Completion}
    (hcs : cs = [] ∨ cs = tl.flushCompletions)
    (hstate : (tl.state = .compacting → state = .compacting) ∨ tl.nextCompletions = [] ∧ cs = []) :
    LogInv D durable ts
      { tl with state := state, destroyed := destroyed, flushCompletions := cs } := by
  have hmem : ∀ x ∈ cs, x ∈ tl.flushCompletions := by
    rcases hcs with rfl | rfl
    · simp
    · exact fun _ hx => hx
  refine ⟨h.shape.congr rfl rfl rfl, h.dirty, ?_, ?_, fun x hx => h.tokens x (hmem x hx),
    fun hfaulted => { h.sound hfaulted with }⟩
  · intro hne
    rcases hstate with hkept | ⟨hnext, -⟩
    · obtain ⟨hrestaged, hfaulted, hbusy⟩ := h.next hne
      exact ⟨hrestaged, hfaulted, hbusy.imp_right hkept⟩
    · exact (hne hnext).elim
  · intro hne
    rcases hstate with hkept | ⟨-, hempty⟩
    · obtain ⟨x, hx⟩ := exists_mem_of_ne_nil _ hne
      exact (h.waiters (ne_nil_of_mem (hmem x hx))).imp_right hkept
    · exact (hne hempty).elim

variable {k : Nat}

section Switch

variable {new : Nat} {durable' : List (Write Byte)} {ok : Bool}

structure Switching (s : Sys) (S : List Nat) (m : Nat) (t : Task) (rest : List Task) (new : Nat)
    (durable' : List (Write Byte)) (ok : Bool) : Prop where
  perm : s.tasks.Perm ([t] ++ rest)
  task : t.isCompaction = true
  temp : s.temp = some new
  flush : (s.logs new).flushCompletions = []
  rest : rest.filter Task.isCompaction = []
  stored : ∀ b, Stored s.durable b → Stored durable' b
  written : ok = true → ∀ n ∈ S, WrittenIn s new n
  next : ok = false → (s.logs s.tl).nextCompletions = []
  all : s.writes ≤ m

section

variable (h : Core s S m H)
include h

theorem Core.threads_of_temp (htemp : s.temp ≠ none) :
    NoSwitching s ∧ ∀ u ∈ s.threads, ∀ l n e, u.cont ≠ .logged l n e := by
  constructor
  · intro u hu
    obtain ⟨-, hcont⟩ := h.threads u hu
    cases hc : u.cont with
    | switching =>
      rw [hc] at hcont
      exact (htemp hcont.2.1).elim
    | done | logged | loggedTwice => rfl
  · intro u hu l n e hc
    obtain ⟨-, hcont⟩ := h.threads u hu
    rw [hc] at hcont
    exact htemp hcont

section

variable (hs : Switching s S m t rest new durable' ok)
include hs

theorem Core.switched_flush
    (hk : k < s.nlogs) :
    ((({ s with tasks := rest, durable := durable' } : Sys).switched s.tl new ok).logs
      k).flushCompletions = [] := by
  have hc := h.temp new hs.temp
  rw [Sys.switched_eq _ fun heq => hc.ne heq.symm]
  by_cases htl : k = s.tl
  · simp [htl]
  · rcases h.flush_eq hk htl with hempty | ⟨htemp, -⟩
    · simp [htl, hempty]
    · rw [hs.temp] at htemp
      cases htemp
      simp [htl, hs.flush]

theorem Core.switched_next :
    ((({ s with tasks := rest, durable := durable' } : Sys).switched s.tl new ok).logs
      (if ok then new else s.tl)).nextCompletions = [] := by
  have hc := h.temp new hs.temp
  rw [Sys.switched_eq _ fun heq => hc.ne heq.symm]
  cases ok with
  | true => exact hc.next
  | false => exact hs.next rfl

theorem Core.switched_log
    (hk : k < s.nlogs) :
    LogInv (demand s.calls S) durable' (rest.filter (Task.mine k))
      ((({ s with tasks := rest, durable := durable' } : Sys).switched s.tl new ok).logs k) := by
  have hc := h.temp new hs.temp
  have hne : s.tl ≠ new := fun heq => hc.ne heq.symm
  have hempty := h.switched_flush hs hk
  have hnext := h.switched_next hs
  rw [Sys.switched_eq _ hne] at hempty hnext ⊢
  have hlog := (h.log k hk).mono hs.stored (filter_mine_rest hs.perm hs.task k) fun _ _ _ hn => hn
  refine hlog.relabel _ _ (.inl hempty) ?_
  by_cases hused : k = if ok then new else s.tl
  · rw [← hused] at hnext
    exact .inr ⟨hnext, hempty⟩
  · exact .inl fun hkept => (if_neg hused).trans hkept

end

end

theorem NoSwitching.holds (h : NoSwitching s) (logs : Nat → Log) :
    s.threads.flatMap (Thread.holds logs) = [] := by
  rw [flatMap_eq_nil_iff]
  exact fun u hu => Thread.holds_eq_nil (h u hu)

theorem waiting_eq_nil (hflush : (s.logs s.tl).flushCompletions = [])
    (hnext : (s.logs s.tl).nextCompletions = [])
    (hholds : s.threads.flatMap (Thread.holds s.logs) = []) : waiting s = [] := by
  rw [waiting, hflush, hnext, hholds]
  rfl

theorem Core.switched (h : Core s S m H) (hs : Switching s S m t rest new durable' ok) :
    Core (({ s with tasks := rest, durable := durable' } : Sys).switched s.tl new ok) S m
      (callers (s.logs s.tl).nextCompletions ++ H) := by
  have hc := h.temp new hs.temp
  have htemp : s.temp ≠ none := by
    simp [hs.temp]
  have hstate := h.compacting.mpr htemp
  have hne : s.tl ≠ new := fun heq => hc.ne heq.symm
  obtain ⟨hswitching, hlogged⟩ := h.threads_of_temp htemp
  have hlog : ∀ k < s.nlogs, _ := fun k hk => h.switched_log hs hk
  have hempty : ∀ k < s.nlogs, _ := fun k hk => h.switched_flush hs hk
  have hnext := h.switched_next hs
  rw [Sys.switched_eq _ hne, rebuilds_eq_nil h.tl_flush, append_nil] at hlog hempty hnext ⊢
  have hused : (if ok then new else s.tl) < s.nlogs := by
    split_ifs
    · exact hc.lt
    · exact h.tl_lt
  refine { h with
      tl_lt := hused
      log := hlog
      fresh := ?_
      linked := ?_
      compacting := by simp
      inUse := fun k hk c hx => ?_
      rebuild := fun k hk old' new' first start span hx => ?_
      nextUse := ?_
      temp := fun _ hk => by cases hk
      noTemp := fun _ => hs.rest
      has := ?_
      threads := ?_
      ok := ?_
      account := ?_ }
  · intro k hk
    have hnil := filter_mine_rest hs.perm hs.task k
    rw [h.fresh k hk] at hnil
    exact nil_perm.mp hnil
  · intro k hk hlinked
    by_contra hother
    have hlinked : (s.logs k).state = .linked := (if_neg hother).symm.trans hlinked
    rw [h.linked k hk hlinked, hstate] at hlinked
    cases hlinked
  · rw [hempty k hk] at hx
    cases hx
  · rw [hempty k hk] at hx
    cases hx
  · intro k hk hnext
    by_cases hother : k = if ok then new else s.tl
    · exact .inl hother
    · refine .inr ((if_neg hother).trans ?_)
      rcases h.nextUse k hk hnext with rfl | hcompacting
      · exact hstate
      · exact hcompacting
  · intro n hn
    change Has (s.logs (if ok then new else s.tl)) n
    split_ifs
    · exact hc.has n (Nat.lt_of_lt_of_le hn hs.all)
    · exact h.has n hn
  · intro u hu
    refine ⟨(h.threads u hu).1, ?_⟩
    have hu' := hswitching u hu
    cases hcont : u.cont with
    | switching => simp [hcont, Cont.isSwitching] at hu'
    | logged l n e => exact (hlogged u hu l n e hcont).elim
    | done | loggedTwice => trivial
  · have hwritten : ∀ k n, WrittenIn s k n → WrittenIn { s with durable := durable' } k n := by
      rintro k n ⟨r, hr, hn, hb⟩
      exact ⟨r, hr, hn, fun b hbr => hs.stored b (hb b hbr)⟩
    intro call hcall htrue n hn
    refine ⟨?_, fun hnone => (hnone rfl).elim⟩
    rcases mem_append.mp hcall with hcall | hcall
    · obtain ⟨hold, hS⟩ := h.ok call hcall htrue n hn
      cases ok with
      | true => exact hwritten new n (hs.written rfl n (hS htemp))
      | false => exact hwritten s.tl n hold
    · obtain ⟨c, hcaller, rfl⟩ := mem_map.mp hcall
      cases htrue
      exact hwritten new n (hs.written rfl n (hc.waiters c (mem_callers.mp hcaller) n hn))
  · rw [waiting_eq_nil (hempty _ hused) hnext (hswitching.holds _)]
    simpa [waiting, hswitching.holds, comp_def, append_assoc] using h.account

end Switch

/-! ## Waiters are handed over -/

section Loop

variable {old used i : Nat}

theorem LogInv.cleared {D : Completion → Nat → Prop} {durable : List (Write Byte)} {ts : List Task}
    (h : LogInv D durable ts tl) :
    LogInv D durable ts { tl with nextCompletions := [] } :=
  ⟨h.shape.congr rfl rfl rfl, h.dirty, fun hne => (hne rfl).elim, h.waiters, h.tokens,
    fun hfaulted => { h.sound hfaulted with }⟩

theorem Core.cleared (h : Core s S m H) (hne : old ≠ s.tl) (htemp : s.temp = none)
    (hswitching : NoSwitching s) :
    Core (s.setLog old { s.logs old with nextCompletions := [] }) S m H := by
  have heq : s.setLog old { s.logs old with nextCompletions := [] } = { s with logs := fun k =>
      { s.logs k with
        nextCompletions := if k = old then [] else (s.logs k).nextCompletions } } := by
    simp only [Sys.setLog, Sys.mk.injEq, true_and, and_true]
    funext k
    by_cases hk : k = old
    · subst hk
      simp
    · simp [hk]
  rw [heq]
  refine { h with log := ?_, next := ?_, nextUse := ?_, temp := ?_, threads := ?_, account := ?_ }
  · intro k hk
    by_cases hold : k = old
    · simpa [hold] using (h.log k hk).cleared
    · simpa [hold] using h.log k hk
  · intro k hk old' new' first start span hx
    dsimp only at hx
    split_ifs at hx
    · cases hx
    · exact h.next k hk old' new' first start span hx
  · intro k hk hnext
    dsimp only at hnext
    split_ifs at hnext
    · exact (hnext rfl).elim
    · exact h.nextUse k hk hnext
  · intro k hk
    change s.temp = some k at hk
    simp [htemp] at hk
  · intro u hu
    refine ⟨(h.threads u hu).1, ?_⟩
    have hu' := hswitching u hu
    cases hk : u.cont with
    | switching => simp [hk, Cont.isSwitching] at hu'
    | logged => exact htemp
    | done | loggedTwice => trivial
  · have haccount := h.account
    unfold waiting at haccount ⊢
    rw [hswitching.holds] at haccount ⊢
    simpa [Ne.symm hne] using haccount

theorem callers_drop {cs : List Completion} (h : ∀ x ∈ cs, ∃ c, x = .caller c)
    (hi : i < cs.length) :
    ∃ c, cs[i]? = some (.caller c) ∧ callers (cs.drop i) = c :: callers (cs.drop (i + 1)) := by
  obtain ⟨c, hc⟩ := h cs[i] (getElem_mem hi)
  refine ⟨c, ?_, ?_⟩
  · rw [getElem?_eq_getElem hi, hc]
  · rw [drop_eq_getElem_cons hi, hc]
    rfl

theorem Core.switchLoop (left : Nat)
    (h : Core s S m (callers ((s.logs old).nextCompletions.drop i))) (hused : used = s.tl)
    (hold : old < s.nlogs) (hne : old ≠ s.tl) (hstate : (s.logs old).state = .compacting)
    (htemp : s.temp = none) (hlength : i + left = (s.logs old).nextCompletions.length)
    (hswitching : NoSwitching s) (hfaulted : 0 < left → (s.logs used).faulted = false)
    (hend : 0 < left → ((s.switchLoop old used space i left).logs used).faulted = false) :
    Core (s.switchLoop old used space i left) S m [] := by
  induction left generalizing s i with
  | zero =>
    have hcore := h.cleared hne htemp hswitching
    rw [drop_eq_nil_of_le (by omega)] at hcore
    have hother : ¬used = old := fun heq => hne (heq.symm.trans hused)
    simpa [Sys.switchLoop, hother] using hcore
  | succ left ih =>
    subst hused
    have hcallers : ∀ x ∈ (s.logs old).nextCompletions, ∃ c, x = .caller c := by
      intro x hx
      cases x with
      | caller c => exact ⟨c, rfl⟩
      | rebuild old' new first start span =>
        exact (h.next old hold old' new first start span hx).elim
    obtain ⟨c, hget, hdrop⟩ := callers_drop hcallers (show i < _ by omega)
    rw [hdrop] at h
    have hcore : Core (s.logFlush s.tl (some (.caller c)) space).1 S m
        (callers ((s.logs old).nextCompletions.drop (i + 1))) :=
      h.logFlush_caller (hfaulted (by omega)) fun _ _ _ => hswitching
    have hframe := s.sameFrame_logFlush s.tl (some (.caller c)) space
    have hlog := s.logFlush_logs_of_ne hne (some (.caller c)) space
    have hend := hend (by omega)
    simp only [Sys.switchLoop, hget] at hend ⊢
    rw [← hlog] at hcore hstate hlength
    have hother : old ≠ (s.logFlush s.tl (some (.caller c)) space).1.tl := by
      rwa [hframe.tl]
    have hnone : NoSwitching (s.logFlush s.tl (some (.caller c)) space).1 := by
      unfold NoSwitching
      rwa [hframe.threads]
    split_ifs at hend ⊢ with hparked
    · -- the rest is left to the thread
      rw [← append_nil (callers _)] at hcore
      refine hcore.park ⟨?_, hframe.tl.symm, hframe.temp.trans htemp, ?_, hother, hstate, ?_,
        by omega, ?_⟩ rfl fun _ => hnone
      · rw [hframe.nlogs]
        exact h.tl_lt
      · rwa [hframe.nlogs]
      · omega
      · rw [hframe.tl]
        exact hend
    · have hkept := s.logFlush_faulted (Bool.eq_false_iff.mpr hparked)
      refine ih hcore hframe.tl.symm (hframe.nlogs ▸ hold) hother hstate (hframe.temp.trans htemp)
        (by omega) hnone (fun _ => hkept.trans (hfaulted (by omega))) fun _ => hend

theorem Sys.logFlushRestaged_idle (s : Sys) (hnext : (s.logs l).nextCompletions = [])
    (space : List Nat) :
    ∃ b, s.logFlushRestaged l space = (s.setLog l { s.logs l with timer := b }, false) := by
  unfold Sys.logFlushRestaged
  dsimp only
  split_ifs with hstop hwait
  · exact ⟨(s.logs l).timer, Prod.ext (s.setLog_self l).symm rfl⟩
  · exact (hwait (by simp [hnext])).elim
  · exact ⟨true, rfl⟩

theorem Core.logSwitchComplete {new : Nat} {durable' : List (Write Byte)} {ok : Bool}
    (h : Core s S m []) (hs : Switching s S m t rest new durable' ok)
    (hfaulted : (s.logs s.tl).nextCompletions ≠ [] → (s.logs new).faulted = false)
    (hend : (s.logs s.tl).nextCompletions ≠ [] →
      (((({ s with tasks := rest, durable := durable' } : Sys).logSwitchComplete s.tl new ok
        space).logs new).faulted = false)) :
    Core (({ s with tasks := rest, durable := durable' } : Sys).logSwitchComplete s.tl new ok space)
      S m [] := by
  have hc := h.temp new hs.temp
  have hne : s.tl ≠ new := fun heq => hc.ne heq.symm
  have hcore := h.switched hs
  rw [append_nil] at hcore
  have hlogs := ({ s with tasks := rest, durable := durable' } : Sys).switched_eq hne ok
  have hnext : ((({ s with tasks := rest, durable := durable' } : Sys).switched s.tl new ok).logs
      s.tl).nextCompletions = (s.logs s.tl).nextCompletions := by
    rw [hlogs]
  unfold Sys.logSwitchComplete at hend ⊢
  cases ok with
  | true =>
    have htemp : s.temp ≠ none := by
      simp [hs.temp]
    rw [← hnext, ← drop_zero (l := Log.nextCompletions _)] at hcore
    have hpos : 0 < (s.logs s.tl).nextCompletions.length → (s.logs s.tl).nextCompletions ≠ [] :=
      ne_nil_of_length_pos
    refine hcore.switchLoop _ rfl h.tl_lt hne ?_ rfl (by simp [hnext]) ?_ ?_
      (fun hlt => hend (hpos hlt))
    · rw [hlogs]
      simpa [hne] using h.compacting.mpr htemp
    · exact (h.threads_of_temp htemp).1
    · intro hlt
      rw [hlogs]
      exact hfaulted (hpos hlt)
  | false =>
    have hempty := hs.next rfl
    rw [hempty] at hcore hnext ⊢
    obtain ⟨b, hb⟩ := (({ s with tasks := rest, durable := durable' } : Sys).switched s.tl new
      false).logFlushRestaged_idle hnext space
    have hsame : (({ s with tasks := rest, durable := durable' } : Sys).switched s.tl new
        false).setLog s.tl { (({ s with tasks := rest, durable := durable' } : Sys).switched s.tl
          new false).logs s.tl with nextCompletions := [] } =
        ({ s with tasks := rest, durable := durable' } : Sys).switched s.tl new false := by
      rw [← hnext]
      exact Sys.setLog_self _ _
    simp only [Sys.switchLoop, length_nil, Bool.false_eq_true, if_false, if_true, hsame, hb,
      Sys.parkIf]
    exact hcore.timer h.tl_lt b

end Loop

/-! ## A compaction starts -/

section Start

variable {D : Completion → Nat → Prop} {durable : List (Write Byte)}

theorem LogInv.empty (hrecords : tl.records = []) (hstaging : tl.tupleStaging = [])
    (hlengths : tl.encodingLengths = []) (hcurrent : tl.current.WF)
    (hflush : tl.flushCompletions = []) (hnext : tl.nextCompletions = [])
    (hflushing : tl.flushing = false) : LogInv D durable [] tl := by
  refine ⟨.idle hflushing, ?_, fun hne => (hne hnext).elim, fun hne => (hne hflush).elim, ?_,
    fun _ => ⟨?_, ?_, hcurrent, by simp, ?_, ?_, ?_⟩⟩ <;> simp [*, totalLength]

variable (version : Version) (start : Nat) (image : Encoding) (volume : List UInt8)

theorem LogInv.newLog : LogInv D durable [] (Sys.newLog version start) :=
  LogInv.empty rfl rfl rfl (Nat.zero_le _) rfl rfl rfl

def Sys.rebuiltLog (s : Sys) : Log :=
  Sys.addFlush (stagedLog (Sys.newLog s.version start) ⟨s.nrecords, image.length, s.applied⟩ image)
    [.rebuild s.tl s.nlogs (Sys.firstExt s.version volume) start
      (defaultExtensionSize / sectorSize)]

def Sys.rebuildFrames (s : Sys) (space : List Nat) : Staging Byte × Bool :=
  s.frames (s.rebuiltLog start image volume) space

def Sys.compacting (s : Sys) (space : List Nat) : Sys :=
  let r := s.rebuildFrames start image volume space
  { s with
    logs := update
      (update s.logs s.tl { s.logs s.tl with state := .compacting }) s.nlogs
      (Sys.flushedLog (s.rebuiltLog start image volume) r.1 r.2)
    nlogs := s.nlogs + 1
    nrecords := s.nrecords + 1
    temp := some s.nlogs
    tasks := s.tasks ++ Sys.flushTasks s.nlogs r.1 }

theorem Sys.compact_eq (s : Sys) (space : List Nat) :
    s.compact s.tl start image volume space =
      (s.compacting start image volume space, true) := by
  simp [Sys.compact, Sys.compacting, Sys.stage, Sys.logSetDirty, Sys.setLog, Sys.newLog,
    Sys.markRestaged, Sys.logFlush, Sys.startFlush, Sys.rebuildFrames, Sys.rebuiltLog, stagedLog,
    Sys.frames, Sys.addFlush, Sys.flushedLog]

variable {start image volume}

theorem Sys.compacting_logs (s : Sys) (space : List Nat) (hk : k < s.nlogs) :
    (s.compacting start image volume space).logs k =
      { s.logs k with state := if k = s.tl then .compacting else (s.logs k).state } := by
  simp only [Sys.compacting, update_of_ne (Nat.ne_of_lt hk)]
  by_cases htl : k = s.tl
  · subst htl
    simp
  · simp [htl]

theorem Sys.compacting_new (s : Sys) (space : List Nat) :
    (s.compacting start image volume space).logs s.nlogs =
      Sys.flushedLog (s.rebuiltLog start image volume)
        (s.rebuildFrames start image volume space).1
        (s.rebuildFrames start image volume space).2 := by
  simp [Sys.compacting]

theorem Sys.compacting_new_state (s : Sys) (space : List Nat) :
    ((s.compacting start image volume space).logs s.nlogs).state = .init ∨
      ((s.compacting start image volume space).logs s.nlogs).state = .failed := by
  rw [Sys.compacting_new]
  cases (s.rebuildFrames start image volume space).2 with
  | true => exact .inl rfl
  | false => exact .inr rfl

theorem LogInv.rebuilt (calls : List Nat) :
    LogInv (demand calls s.applied) durable
      (Sys.flushTasks s.nlogs (s.rebuildFrames start image volume space).1)
      (Sys.flushedLog (s.rebuiltLog start image volume)
        (s.rebuildFrames start image volume space).1
        (s.rebuildFrames start image volume space).2) := by
  have hstaged : LogInv (demand calls s.applied) durable [] (stagedLog (Sys.newLog s.version start)
      ⟨s.nrecords, image.length, s.applied⟩ image) :=
    (LogInv.newLog s.version start).staged rfl
  refine LogInv.start s.nlogs rfl rfl ?_ ?_ rfl
  · exact fun hfaulted => { hstaged.sound hfaulted with }
  · intro x hx
    refine ⟨rfl, fun n hn => ⟨⟨s.nrecords, image.length, s.applied⟩, mem_singleton_self _, ?_⟩⟩
    rw [mem_singleton.mp hx] at hn
    exact hn

theorem Sys.compacting_tasks_of_lt (hk : k < s.nlogs) :
    (s.compacting start image volume space).tasks.filter (Task.mine k) =
      s.tasks.filter (Task.mine k) := by
  simp [Sys.compacting, (mine_flushTasks s.nlogs _).filter_of_ne (Nat.ne_of_lt hk)]

/-- What holds of the old logs, the one in use being compacted, and of the new one. -/
theorem Sys.forall_compacting {P : Nat → Log → Prop}
    (hold : ∀ k < s.nlogs,
      P k { s.logs k with state := if k = s.tl then .compacting else (s.logs k).state })
    (hnew : P s.nlogs (Sys.flushedLog (s.rebuiltLog start image volume)
      (s.rebuildFrames start image volume space).1
      (s.rebuildFrames start image volume space).2)) :
    ∀ k < (s.compacting start image volume space).nlogs,
      P k ((s.compacting start image volume space).logs k) := by
  intro k hk
  rcases Nat.lt_succ_iff_lt_or_eq.mp hk with hk | rfl
  · rw [s.compacting_logs space hk]
    exact hold k hk
  · rw [s.compacting_new space]
    exact hnew

section

variable (h : Core s S m [])
include h

theorem Core.temp_eq_none (hlinked : (s.logs s.tl).state = .linked) : s.temp = none := by
  by_contra htemp
  rw [h.compacting.mpr htemp] at hlinked
  cases hlinked

theorem Core.mem_applied (hcont : ∀ u ∈ s.threads, u.cont = .done) : ∀ n < m, n ∈ s.applied := by
  intro n hn
  rcases h.applied n hn with hmem | ⟨u, hu, hwrites⟩
  · exact hmem
  · simp [hcont u hu, Cont.writes] at hwrites

theorem Core.compacting_log (hnone : s.temp = none) :
    ∀ k < (s.compacting start image volume space).nlogs,
      LogInv (demand s.calls s.applied) s.durable
        ((s.compacting start image volume space).tasks.filter (Task.mine k))
        ((s.compacting start image volume space).logs k) := by
  refine Sys.forall_compacting (P := fun k log => LogInv _ _
    ((s.compacting start image volume space).tasks.filter (Task.mine k)) log) (fun k hk => ?_) ?_
  · rw [Sys.compacting_tasks_of_lt hk]
    have hlog : LogInv (demand s.calls s.applied) s.durable (s.tasks.filter (Task.mine k))
        (s.logs k) := by
      refine (h.log k hk).mono (fun _ hb => hb) (.refl _) fun x hx n hn => ?_
      cases x with
      | caller => exact hn
      | rebuild old new first start span =>
        have htemp := h.rebuild k hk old new first start span hx
        simp [hnone] at htemp
    refine hlog.relabel _ (s.logs k).destroyed (.inr rfl) (.inl fun hkept => ?_)
    rw [hkept, ite_self]
  · have hnew : (s.compacting start image volume space).tasks.filter (Task.mine s.nlogs) =
        Sys.flushTasks s.nlogs (s.rebuildFrames start image volume space).1 := by
      change (s.tasks ++ Sys.flushTasks _ _).filter _ = _
      rw [filter_append, h.fresh s.nlogs (Nat.le_refl _),
        (mine_flushTasks s.nlogs _).filter_self, nil_append]
    rw [hnew]
    exact LogInv.rebuilt _

theorem Core.compacting_temp (hnone : s.temp = none) (hm : s.writes ≤ m)
    (happlied : ∀ n < m, n ∈ s.applied) :
    Compacting (s.compacting start image volume space) s.applied m s.nlogs := by
  refine ⟨Nat.lt_succ_self _, Nat.ne_of_gt h.tl_lt, ?_, ?_, ?_, ?_, ?_, ?_⟩
  · rcases s.compacting_new_state space with heq | heq <;> rw [heq] <;> simp
  · rw [Sys.compacting_new]
    rfl
  · refine .flushing (Sys.firstExt s.version volume) start
      (defaultExtensionSize / sectorSize) ?_ ?_
    · rw [Sys.compacting_new]
      rfl
    · change (s.tasks ++ Sys.flushTasks _ _).filter _ = _
      rw [filter_append, h.noTemp hnone, (mine_flushTasks s.nlogs _).filter_isCompaction,
        nil_append]
  · exact fun c _ n hn => happlied n (Nat.lt_of_lt_of_le (h.wanted hn).1 hm)
  · exact fun _ n hn => happlied n (Nat.lt_of_lt_of_le hn hm)
  · intro n hn
    rw [Sys.compacting_new]
    exact ⟨⟨s.nrecords, image.length, s.applied⟩, mem_singleton_self _, happlied n hn⟩

theorem Core.compacting_waiting (hcont : ∀ u ∈ s.threads, u.cont = .done) :
    waiting (s.compacting start image volume space) = waiting s := by
  have hswitching : NoSwitching s := by
    intro u hu
    rw [hcont u hu]
    rfl
  unfold waiting
  rw [show (s.compacting start image volume space).tl = s.tl from rfl,
    show (s.compacting start image volume space).threads = s.threads from rfl,
    hswitching.holds, hswitching.holds, s.compacting_logs space h.tl_lt]

theorem Core.compact (hm : s.writes ≤ m) (hlinked : (s.logs s.tl).state = .linked)
    (hdone : ∀ u ∈ s.threads, u.cont.isDone = true) :
    Core (s.compacting start image volume space) s.applied m [] := by
  have hnone : s.temp = none := h.temp_eq_none hlinked
  have hcont : ∀ u ∈ s.threads, u.cont = .done := fun u hu => Cont.eq_done (hdone u hu)
  have happlied : ∀ n < m, n ∈ s.applied := h.mem_applied hcont
  have htl : (s.compacting start image volume space).logs (s.compacting start image volume space).tl
      = { s.logs s.tl with state := .compacting } := by
    simp [show (s.compacting start image volume space).tl = s.tl from rfl,
      s.compacting_logs space h.tl_lt]
  constructor
  case tl_lt => exact Nat.lt_succ_of_lt h.tl_lt
  case log => exact h.compacting_log hnone
  case fresh =>
    intro k hk
    have hlt : s.nlogs < k := hk
    change (s.tasks ++ Sys.flushTasks _ _).filter _ = _
    rw [filter_append, h.fresh k (Nat.le_of_lt hlt),
      (mine_flushTasks s.nlogs _).filter_of_ne (Nat.ne_of_gt hlt), nil_append]
  case linked =>
    refine Sys.forall_compacting (P := fun k log => log.state = .linked → k = s.tl)
      (fun k hk hstate => ?_) fun hstate => ?_
    · dsimp only at hstate
      split_ifs at hstate with heq
      exact h.linked k hk hstate
    · rw [← s.compacting_new space] at hstate
      rcases s.compacting_new_state space with heq | heq <;> rw [heq] at hstate <;> cases hstate
  case compacting =>
    rw [htl]
    exact ⟨fun _ => nofun, fun _ => rfl⟩
  case inUse =>
    exact Sys.forall_compacting (P := fun k log => ∀ c, .caller c ∈ log.flushCompletions → k = s.tl)
      h.inUse fun c hx => by cases mem_singleton.mp hx
  case rebuild =>
    refine Sys.forall_compacting (P := fun k log => ∀ old new first start' span,
      .rebuild old new first start' span ∈ log.flushCompletions → some s.nlogs = some k)
      (fun k hk old new first start' span hx => ?_) fun _ _ _ _ _ _ => rfl
    have htemp := h.rebuild k hk old new first start' span hx
    simp [hnone] at htemp
  case next =>
    exact Sys.forall_compacting (P := fun _ log => ∀ old new first start' span,
      .rebuild old new first start' span ∉ log.nextCompletions)
      h.next fun _ _ _ _ _ hx => by cases hx
  case nextUse =>
    refine Sys.forall_compacting (P := fun k log => log.nextCompletions ≠ [] →
      k = s.tl ∨ log.state = .compacting) (fun k hk hnext => ?_) fun hnext => (hnext rfl).elim
    refine (h.nextUse k hk hnext).imp_right fun hstate => ?_
    rw [hstate, ite_self]
  case temp =>
    intro k hk
    cases hk
    exact h.compacting_temp hnone hm happlied
  case noTemp => exact nofun
  case has =>
    intro n hn
    rw [htl]
    exact h.has n hn
  case calls => exact h.calls
  case threads =>
    intro u hu
    refine ⟨Nat.lt_succ_of_lt (h.threads u hu).1, ?_⟩
    rw [hcont u hu]
    trivial
  case single => exact h.single
  case applied => exact h.applied
  case ok =>
    intro call hcall htrue n hn
    obtain ⟨⟨r, hr, hmem, hb⟩, -⟩ := h.ok call hcall htrue n hn
    refine ⟨⟨r, ?_, hmem, hb⟩, fun _ => happlied n (Nat.lt_of_lt_of_le (h.wanted hn).1 hm)⟩
    rw [htl]
    exact hr
  case account =>
    rw [h.compacting_waiting hcont]
    exact h.account

end

end Start

end Jerboa.Tfs.Tlog
