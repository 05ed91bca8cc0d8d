import Jerboa.Tfs.Tlog.LogInv

/-!
# The invariant of the log

Each completion given to `log_flush` was called or waits in one place where it
will be called, the log in use has every update, and the log that a compaction
builds has them too.  A step that changes a single log keeps this up, and so
does `log_flush`.
-/

namespace Jerboa.Tfs.Tlog

open List Function

/-- The update is in a record of the log `l` all bytes of which are on
storage. -/
def WrittenIn (s : Sys) (l n : Nat) : Prop :=
  ∃ r ∈ (s.logs l).records, n ∈ r.writes ∧ ∀ b ∈ r.bytes, Stored s.durable b

instance (durable : List (Write Byte)) (b : Byte) : Decidable (Stored durable b) :=
  inferInstanceAs (Decidable (∃ w ∈ durable, _))

instance (s : Sys) (l n : Nat) : Decidable (WrittenIn s l n) :=
  inferInstanceAs (Decidable (∃ r ∈ (s.logs l).records, _))

/-- A completion is called with OK only if every update staged before its
`log_flush` was written by storage writes that succeeded. -/
def OkIfWritten (s : Sys) : Prop :=
  ∀ call ∈ s.invoked, call.2 = true → ∀ n < s.calls.getD call.1 0, ∃ l < s.nlogs, WrittenIn s l n

instance (s : Sys) : Decidable (OkIfWritten s) :=
  inferInstanceAs (Decidable (∀ call ∈ s.invoked, _))

/-- No completion is called twice, and when no storage request, handler or
thread is left every one has been called. -/
def CalledOnce (s : Sys) : Prop :=
  ∀ c < s.calls.length, (s.invoked.map Prod.fst).count c ≤ 1 ∧
    (s.tasks.length = 0 ∧ s.threads.length = 0 → (s.invoked.map Prod.fst).count c = 1)

instance (s : Sys) : Decidable (CalledOnce s) :=
  inferInstanceAs (Decidable (∀ c < s.calls.length, _))

def NextEmpty (s : Sys) : Prop := ∀ l < s.nlogs, (s.logs l).nextCompletions.length = 0

instance (s : Sys) : Decidable (NextEmpty s) :=
  inferInstanceAs (Decidable (∀ l < s.nlogs, _))

def Faults (s s' : Sys) : Prop :=
  ∃ l < s.nlogs, (s'.logs l).faulted = true ∧ (s.logs l).faulted = false

instance (s s' : Sys) : Decidable (Faults s s') :=
  inferInstanceAs (Decidable (∃ l < s.nlogs, _))

/-- The thread is neither in a log write nor handing over completions. -/
def Cont.isDone : Cont → Bool
  | .done => true
  | _ => false

theorem Cont.eq_done {c : Cont} (h : c.isDone = true) : c = .done := by
  cases c with
  | done => rfl
  | logged | loggedTwice | switching => cases h

/-- The end of a compaction finds nothing to hand over, or a log without
failures to hand it to. -/
def CalmSwitch (s : Sys) (ok : Bool) : Task → Prop
  | .storage _ (.switch old new) =>
    (s.logs old).nextCompletions.length = 0 ∨ ok = true ∧ (s.logs new).faulted = false
  | .rebuildComplete old _ _ _ _ done =>
    (s.logs old).nextCompletions.length = 0 ∨ done = true
  | _ => True

instance (s : Sys) (ok : Bool) : (t : Task) → Decidable (CalmSwitch s ok t)
  | .storage _ (.switch ..) => inferInstanceAs (Decidable (_ ∨ _))
  | .rebuildComplete .. => inferInstanceAs (Decidable (_ ∨ _))
  | .storage _ (.join _) | .storage _ (.link ..) | .flushComplete .. => .isTrue trivial

def CalmAction (s : Sys) : Sys.Action → Prop
  | .flush _ => (s.logs s.tl).faulted = false
  | .task i ok _ => ∀ t ∈ s.tasks[i]?, CalmSwitch s ok t
  | .resume i start _ _ _ => ∀ t ∈ s.threads[i]?, start.isSome = true →
      Sys.compactionDue (s.logs t.log) = true → ∀ u ∈ s.threads, u.cont.isDone = true
  | _ => True

instance (s : Sys) (a : Sys.Action) : Decidable (CalmAction s a) := by
  cases a <;> unfold CalmAction <;> infer_instance

/-- The condition on a step.  Failures come only while nothing waits for a
flush after the next one; a completion is given to `log_flush` only on a log
without failures; a compaction starts only while no thread is in the middle of
a log write or of handing over completions, and ends as `CalmSwitch` says; and
a log write that stages its record succeeds. -/
def Calm (s : Sys) (a : Sys.Action) : Prop :=
  CalmAction s a ∧ (Faults s (s.step a) → NextEmpty s) ∧
    (s.step a).failedWrites.length = s.failedWrites.length
deriving Decidable

/-! ## The invariant -/

/-- What a completion waits for.  `S` are the updates in the tree that a
compaction began with. -/
def demand (calls : List Nat) (S : List Nat) : Completion → Nat → Prop
  | .caller c, n => n < calls.getD c 0
  | .rebuild .., n => n ∈ S

def Has (tl : Log) (n : Nat) : Prop := ∃ r ∈ tl.records, n ∈ r.writes

def Task.isCompaction : Task → Bool
  | .rebuildComplete .. => true
  | .storage _ (.switch ..) => true
  | _ => false

inductive Phase (s : Sys) (S : List Nat) (t : Nat) : Prop where
  | flushing (first : Ext Byte) (start span : Nat)
      (hflush : (s.logs t).flushCompletions = [.rebuild s.tl t first start span])
      (htasks : s.tasks.filter Task.isCompaction = [])
  | rebuilt (first : Ext Byte) (start span : Nat) (ok : Bool)
      (hflush : (s.logs t).flushCompletions = [])
      (htasks : s.tasks.filter Task.isCompaction =
        [.rebuildComplete s.tl t first start span ok])
      (hS : ok = true → ∀ n ∈ S, WrittenIn s t n)
  | linking (w : Write Byte) (hflush : (s.logs t).flushCompletions = [])
      (htasks : s.tasks.filter Task.isCompaction = [.storage w (.switch s.tl t)])
      (hS : ∀ n ∈ S, WrittenIn s t n)

/-- A compaction is under way.  The new log has the first `m` updates. -/
structure Compacting (s : Sys) (S : List Nat) (m t : Nat) : Prop where
  lt : t < s.nlogs
  ne : t ≠ s.tl
  state : (s.logs t).state ≠ .compacting
  next : (s.logs t).nextCompletions = []
  phase : Phase s S t
  waiters : ∀ c, .caller c ∈ (s.logs s.tl).flushCompletions → ∀ n < s.calls.getD c 0, n ∈ S
  all : (s.logs s.tl).restaged = false → ∀ n < s.writes, n ∈ S
  has : ∀ n < m, Has (s.logs t) n

def Thread.holds (logs : Nat → Log) (t : Thread) : List Nat :=
  match t.cont with
  | .switching old _ i _ => callers ((logs old).nextCompletions.drop i)
  | _ => []

def Cont.isSwitching : Cont → Bool
  | .switching .. => true
  | _ => false

def Cont.writes : Cont → Option Nat
  | .logged _ n _ => some n
  | .loggedTwice _ n => some n
  | _ => none

def ThreadInv (s : Sys) (t : Thread) : Prop :=
  t.log < s.nlogs ∧ match t.cont with
  | .logged .. => s.temp = none
  | .switching old used i left => used = s.tl ∧ s.temp = none ∧ old < s.nlogs ∧ old ≠ s.tl ∧
      (s.logs old).state = .compacting ∧ i + left = (s.logs old).nextCompletions.length ∧ 0 < i ∧
      (s.logs s.tl).faulted = false
  | _ => True

/-- What was reported to be written is in the log in use, and in the tree that a compaction
began with: no switch loses it. -/
def OkInUse (s : Sys) (S : List Nat) : Prop :=
  ∀ call ∈ s.invoked, call.2 = true → ∀ n < s.calls.getD call.1 0,
    WrittenIn s s.tl n ∧ (s.temp ≠ none → n ∈ S)

def waiting (s : Sys) : List Nat :=
  callers (s.logs s.tl).flushCompletions ++ callers (s.logs s.tl).nextCompletions ++
    s.threads.flatMap (Thread.holds s.logs)

/-- The invariant.  The tree in memory has the first `m` updates, but for those
of log writes under way, and `H` are the completions in the hands of the handler
that is running. -/
structure Core (s : Sys) (S : List Nat) (m : Nat) (H : List Nat) : Prop where
  tl_lt : s.tl < s.nlogs
  log : ∀ l < s.nlogs,
    LogInv (demand s.calls S) s.durable (s.tasks.filter (Task.mine l)) (s.logs l)
  fresh : ∀ l, s.nlogs ≤ l → s.tasks.filter (Task.mine l) = []
  linked : ∀ l < s.nlogs, (s.logs l).state = .linked → l = s.tl
  compacting : (s.logs s.tl).state = .compacting ↔ s.temp ≠ none
  inUse : ∀ l < s.nlogs, ∀ c, .caller c ∈ (s.logs l).flushCompletions → l = s.tl
  rebuild : ∀ l < s.nlogs, ∀ old new first start span,
    .rebuild old new first start span ∈ (s.logs l).flushCompletions → s.temp = some l
  next : ∀ l < s.nlogs, ∀ old new first start span,
    .rebuild old new first start span ∉ (s.logs l).nextCompletions
  nextUse : ∀ l < s.nlogs, (s.logs l).nextCompletions ≠ [] →
    l = s.tl ∨ (s.logs l).state = .compacting
  temp : ∀ t, s.temp = some t → Compacting s S m t
  noTemp : s.temp = none → s.tasks.filter Task.isCompaction = []
  has : ∀ n < s.writes, Has (s.logs s.tl) n
  calls : ∀ k ∈ s.calls, k ≤ s.writes
  threads : ∀ t ∈ s.threads, ThreadInv s t
  single : (s.threads.filter fun t => t.cont.isSwitching).length ≤ 1
  applied : ∀ n < m, n ∈ s.applied ∨ ∃ t ∈ s.threads, t.cont.writes = some n
  ok : OkInUse s S
  account : (s.invoked.map Prod.fst ++ waiting s ++ H).Perm (List.range s.calls.length)

/-! ## Steps of one log -/

structure Keeps (tl tl' : Log) : Prop where
  linked : tl'.state = .linked → tl.state = .linked
  compacting : tl'.state = .compacting ↔ tl.state = .compacting
  records : ∀ r ∈ tl.records, r ∈ tl'.records
  restaged : tl.state = .compacting → tl'.restaged = false → tl.restaged = false

theorem Keeps.refl (tl : Log) : Keeps tl tl :=
  ⟨fun h => h, .rfl, fun _ h => h, fun _ h => h⟩

theorem Keeps.has {tl tl' : Log} (h : Keeps tl tl') {n : Nat} (hn : Has tl n) : Has tl' n := by
  obtain ⟨r, hr, hmem⟩ := hn
  exact ⟨r, h.records r hr, hmem⟩

/-- The step changes nothing but the logs, in such a way, and their tasks.  Only
the log in use may get other completions, of callers. -/
structure Shell (s s' : Sys) : Prop where
  tl : s'.tl = s.tl
  temp : s'.temp = s.temp
  nlogs : s'.nlogs = s.nlogs
  threads : s'.threads = s.threads
  calls : s'.calls = s.calls
  writes : s'.writes = s.writes
  applied : s'.applied = s.applied
  stored : ∀ b, Stored s.durable b → Stored s'.durable b
  keeps : ∀ l, Keeps (s.logs l) (s'.logs l)
  flush : ∀ l, l ≠ s.tl →
    ∀ x ∈ (s'.logs l).flushCompletions, x ∈ (s.logs l).flushCompletions
  next : ∀ l, l ≠ s.tl → (s'.logs l).nextCompletions = (s.logs l).nextCompletions
  tlFlush : ∀ x ∈ (s'.logs s.tl).flushCompletions,
    x ∈ (s.logs s.tl).flushCompletions ∨ ∃ c, x = .caller c
  tlNext : ∀ x ∈ (s'.logs s.tl).nextCompletions,
    x ∈ (s.logs s.tl).nextCompletions ∨ ∃ c, x = .caller c

section Frame

variable {s s' : Sys} {S : List Nat} {m : Nat} {H H' : List Nat}

theorem Shell.writtenIn (h : Shell s s') {l n : Nat} (hn : WrittenIn s l n) : WrittenIn s' l n := by
  obtain ⟨r, hr, hmem, hb⟩ := hn
  exact ⟨r, (h.keeps l).records r hr, hmem, fun b hbr => h.stored b (hb b hbr)⟩

theorem Shell.phase (h : Shell s s') {t : Nat} (hp : Phase s S t)
    (hflush : (s'.logs t).flushCompletions = (s.logs t).flushCompletions)
    (hcompaction : (s'.tasks.filter Task.isCompaction).Perm (s.tasks.filter Task.isCompaction)) :
    Phase s' S t := by
  cases hp with
  | flushing first start span hrebuild htasks =>
    refine .flushing first start span ?_ (perm_nil.mp (htasks ▸ hcompaction))
    rw [hflush, hrebuild, h.tl]
  | rebuilt first start span ok hempty htasks hS =>
    refine .rebuilt first start span ok (hflush.trans hempty) ?_
      fun hok n hn => h.writtenIn (hS hok n hn)
    rw [h.tl]
    exact perm_singleton.mp (htasks ▸ hcompaction)
  | linking w hempty htasks hS =>
    refine .linking w (hflush.trans hempty) ?_ fun n hn => h.writtenIn (hS n hn)
    rw [h.tl]
    exact perm_singleton.mp (htasks ▸ hcompaction)

/-- The callers that wait in the log in use have what they want in the tree that
a compaction began with. -/
def WaitersIn (s : Sys) (S : List Nat) : Prop :=
  ∀ c, .caller c ∈ (s.logs s.tl).flushCompletions → ∀ n < s.calls.getD c 0, n ∈ S

theorem Shell.compacting (h : Shell s s') {t : Nat} (hc : Compacting s S m t)
    (htl : (s.logs s.tl).state = .compacting) (hphase : Phase s' S t)
    (hwaiters : WaitersIn s' S) : Compacting s' S m t := by
  refine ⟨h.nlogs ▸ hc.lt, h.tl ▸ hc.ne, ?_, ?_, hphase, hwaiters, ?_, ?_⟩
  · exact fun hstate => hc.state ((h.keeps t).compacting.mp hstate)
  · rw [h.next t hc.ne]
    exact hc.next
  · rw [h.tl, h.writes]
    exact fun hrestaged => hc.all ((h.keeps s.tl).restaged htl hrestaged)
  · exact fun n hn => (h.keeps t).has (hc.has n hn)

/-- A thread that hands over completions keeps its log free of failures. -/
def Unfaulted (s s' : Sys) : Prop :=
  ∀ t ∈ s.threads, ∀ old used i left, t.cont = .switching old used i left →
    (s.logs s.tl).faulted = false → (s'.logs s.tl).faulted = false

theorem Shell.threadInv (h : Shell s s') (hfault : Unfaulted s s') {t : Thread}
    (ht : t ∈ s.threads) (hinv : ThreadInv s t) : ThreadInv s' t := by
  obtain ⟨hlt, hcont⟩ := hinv
  refine ⟨h.nlogs ▸ hlt, ?_⟩
  cases hc : t.cont with
  | done | loggedTwice => trivial
  | logged =>
    rw [hc] at hcont
    exact h.temp.trans hcont
  | switching old used i left =>
    rw [hc] at hcont
    obtain ⟨hused, htemp, hold, hne, hstate, hlength, hi, hfaulted⟩ := hcont
    refine ⟨hused.trans h.tl.symm, h.temp.trans htemp, h.nlogs ▸ hold, h.tl ▸ hne,
      (h.keeps old).compacting.mpr hstate, ?_, hi, ?_⟩
    · rw [h.next old hne]
      exact hlength
    · rw [h.tl]
      exact hfault t ht old used i left hc hfaulted

theorem Core.frame (h : Core s S m H) (hs : Shell s s') (hfault : Unfaulted s s')
    (hlog : ∀ l < s.nlogs,
      LogInv (demand s.calls S) s'.durable (s'.tasks.filter (Task.mine l)) (s'.logs l))
    (hfresh : ∀ l, s.nlogs ≤ l → s'.tasks.filter (Task.mine l) = [])
    (hphase : ∀ t, s.temp = some t → Phase s' S t)
    (hnoTemp : s.temp = none → s'.tasks.filter Task.isCompaction = [])
    (hwaiters : s.temp ≠ none → WaitersIn s' S) (hok : OkInUse s' S)
    (haccount : (s'.invoked.map Prod.fst ++ waiting s' ++ H').Perm (List.range s.calls.length)) :
    Core s' S m H' := by
  constructor
  · rw [hs.tl, hs.nlogs]
    exact h.tl_lt
  · rw [hs.nlogs, hs.calls]
    exact hlog
  · rw [hs.nlogs]
    exact hfresh
  · rw [hs.nlogs, hs.tl]
    exact fun l hl hstate => h.linked l hl ((hs.keeps l).linked hstate)
  · rw [hs.tl, (hs.keeps s.tl).compacting, hs.temp]
    exact h.compacting
  · rw [hs.nlogs, hs.tl]
    intro l hl c hc
    by_cases htl : l = s.tl
    · exact htl
    · exact h.inUse l hl c (hs.flush l htl _ hc)
  · rw [hs.nlogs, hs.temp]
    intro l hl old new first start span hx
    by_cases htl : l = s.tl
    · subst htl
      rcases hs.tlFlush _ hx with hx | ⟨c, hc⟩
      · exact h.rebuild _ hl old new first start span hx
      · cases hc
    · exact h.rebuild l hl old new first start span (hs.flush l htl _ hx)
  · rw [hs.nlogs]
    intro l hl old new first start span hx
    by_cases htl : l = s.tl
    · subst htl
      rcases hs.tlNext _ hx with hx | ⟨c, hc⟩
      · exact h.next _ hl old new first start span hx
      · cases hc
    · rw [hs.next l htl] at hx
      exact h.next l hl old new first start span hx
  · rw [hs.nlogs, hs.tl]
    intro l hl hne
    by_cases htl : l = s.tl
    · exact .inl htl
    · rw [hs.next l htl] at hne
      exact (h.nextUse l hl hne).imp_right (hs.keeps l).compacting.mpr
  · rw [hs.temp]
    intro t ht
    have htemp : s.temp ≠ none := by
      simp [ht]
    exact hs.compacting (h.temp t ht) (h.compacting.mpr htemp) (hphase t ht) (hwaiters htemp)
  · rw [hs.temp]
    exact hnoTemp
  · rw [hs.writes, hs.tl]
    exact fun n hn => (hs.keeps s.tl).has (h.has n hn)
  · rw [hs.calls, hs.writes]
    exact h.calls
  · rw [hs.threads]
    exact fun t ht => hs.threadInv hfault ht (h.threads t ht)
  · rw [hs.threads]
    exact h.single
  · rw [hs.applied, hs.threads]
    exact h.applied
  · exact hok
  · rw [hs.calls]
    exact haccount

theorem Core.holds_eq (h : Core s S m H) (hs : Shell s s') :
    s'.threads.flatMap (Thread.holds s'.logs) = s.threads.flatMap (Thread.holds s.logs) := by
  rw [hs.threads]
  apply flatMap_congr
  intro t ht
  obtain ⟨-, hcont⟩ := h.threads t ht
  unfold Thread.holds
  cases hc : t.cont with
  | switching old =>
    rw [hc] at hcont
    simp only [hs.next old hcont.2.2.2.1]
  | done | logged | loggedTwice => rfl

theorem Core.frame_same (h : Core s S m H) (hs : Shell s s') (hfault : Unfaulted s s')
    (hinvoked : s'.invoked = s.invoked)
    (hflush : ∀ l, (s'.logs l).flushCompletions = (s.logs l).flushCompletions)
    (hnext : (s'.logs s.tl).nextCompletions = (s.logs s.tl).nextCompletions)
    (hcompaction : (s'.tasks.filter Task.isCompaction).Perm (s.tasks.filter Task.isCompaction))
    (hlog : ∀ l < s.nlogs,
      LogInv (demand s.calls S) s'.durable (s'.tasks.filter (Task.mine l)) (s'.logs l))
    (hfresh : ∀ l, s.nlogs ≤ l → s'.tasks.filter (Task.mine l) = []) : Core s' S m H := by
  refine h.frame hs hfault hlog hfresh ?_ ?_ ?_ ?_ ?_
  · exact fun t ht => hs.phase (h.temp t ht).phase (hflush t) hcompaction
  · exact fun htemp => perm_nil.mp (h.noTemp htemp ▸ hcompaction)
  · intro htemp
    obtain ⟨t, ht⟩ := Option.ne_none_iff_exists'.mp htemp
    unfold WaitersIn
    rw [hs.tl, hflush, hs.calls]
    exact (h.temp t ht).waiters
  · intro call hcall htrue n hn
    rw [hinvoked] at hcall
    rw [hs.calls] at hn
    obtain ⟨hwritten, hS⟩ := h.ok call hcall htrue n hn
    rw [hs.tl, hs.temp]
    exact ⟨hs.writtenIn hwritten, hS⟩
  · have hwaiting : waiting s' = waiting s := by
      unfold waiting
      rw [h.holds_eq hs, hs.tl, hflush, hnext]
    rw [hinvoked, hwaiting]
    exact h.account

end Frame

/-! ## Whose task it is -/

variable {t : Task}

theorem Task.mine_unique {k l : Nat} (hk : t.mine k = true) (hl : t.mine l = true) :
    k = l := by
  cases t with
  | storage w handler =>
    cases handler with
    | join => exact (of_decide_eq_true hk).symm.trans (of_decide_eq_true hl)
    | link => exact (of_decide_eq_true hk).symm.trans (of_decide_eq_true hl)
    | switch => cases hk
  | flushComplete => exact (of_decide_eq_true hk).symm.trans (of_decide_eq_true hl)
  | rebuildComplete => cases hk

theorem Task.not_isCompaction_of_mine {l : Nat} (h : t.mine l = true) :
    t.isCompaction = false := by
  cases t with
  | storage w handler =>
    cases handler with
    | join => rfl
    | link => rfl
    | switch => cases h
  | flushComplete => rfl
  | rebuildComplete => cases h

def Mine (l : Nat) (us : List Task) : Prop := ∀ u ∈ us, u.mine l = true

section Mine

variable {l k : Nat} {us : List Task}

theorem mine_nil : Mine l [] := fun _ hu => (not_mem_nil hu).elim

theorem Mine.filter_self (h : Mine l us) : us.filter (Task.mine l) = us :=
  filter_eq_self.mpr h

theorem Mine.filter_of_ne (h : Mine l us) (hk : k ≠ l) : us.filter (Task.mine k) = [] := by
  rw [filter_eq_nil_iff]
  exact fun u hu hmine => hk (Task.mine_unique hmine (h u hu))

theorem Mine.filter_isCompaction (h : Mine l us) : us.filter Task.isCompaction = [] := by
  rw [filter_eq_nil_iff]
  intro u hu
  simp [Task.not_isCompaction_of_mine (h u hu)]

theorem mine_flushTasks (l : Nat) (st : Staging Byte) : Mine l (Sys.flushTasks l st) := by
  intro u hu
  rcases mem_append.mp hu with hu | hu
  · obtain ⟨k, -, rfl⟩ := mem_map.mp hu
    simp [Task.mine]
  · rw [mem_singleton.mp hu]
    simp [Task.mine]

theorem mine_joinTasks (l : Nat) (tl : Log) : Mine l (Sys.joinTasks l tl) := by
  unfold Sys.joinTasks
  split_ifs
  · intro u hu
    rw [mem_singleton.mp hu]
    simp [Task.mine]
  · exact mine_nil

end Mine

def NoSwitching (s : Sys) : Prop := ∀ t ∈ s.threads, t.cont.isSwitching = false

section LogStep

variable {s : Sys} {S : List Nat} {m : Nat} {H H' cs : List Nat} {c l : Nat}
  {old us rest : List Task}
  {tl' : Log} {durable' : List (Write Byte)}

def Sys.logStep (s : Sys) (l : Nat) (tl' : Log) (tasks : List Task) (durable : List (Write Byte))
    (nrecords : Nat) (invoked : List (Nat × Bool)) : Sys :=
  { s.setLog l tl' with
    tasks := tasks
    durable := durable
    nrecords := nrecords
    invoked := invoked }

@[simp] theorem Sys.logStep_logs (tasks : List Task) (nr : Nat) (inv : List (Nat × Bool)) :
    (s.logStep l tl' tasks durable' nr inv).logs = update s.logs l tl' := rfl

/-- A step of one log: some of the log's tasks are replaced by others. -/
structure LogStep (s : Sys) (S : List Nat) (l : Nat) (old us rest : List Task)
    (durable' : List (Write Byte)) (tl' : Log) : Prop where
  lt : l < s.nlogs
  perm : s.tasks.Perm (old ++ rest)
  old : Mine l old
  new : Mine l us
  stored : ∀ b, Stored s.durable b → Stored durable' b
  keeps : Keeps (s.logs l) tl'
  fault : l = s.tl → (s.logs l).faulted = false → tl'.faulted = true → NoSwitching s
  inv : LogInv (demand s.calls S) durable' (rest.filter (Task.mine l) ++ us) tl'

section

variable (hs : LogStep s S l old us rest durable' tl')
include hs

theorem LogStep.others {k : Nat} (hk : k ≠ l) :
    (s.tasks.filter (Task.mine k)).Perm ((rest ++ us).filter (Task.mine k)) := by
  have hfilter := hs.perm.filter (Task.mine k)
  rwa [filter_append, hs.old.filter_of_ne hk, nil_append,
    ← append_nil (rest.filter _), ← hs.new.filter_of_ne hk, ← filter_append] at hfilter

theorem LogStep.compaction :
    ((rest ++ us).filter Task.isCompaction).Perm (s.tasks.filter Task.isCompaction) := by
  have hfilter := hs.perm.filter Task.isCompaction
  rw [filter_append, hs.old.filter_isCompaction, nil_append] at hfilter
  rw [filter_append, hs.new.filter_isCompaction, append_nil]
  exact hfilter.symm

theorem LogStep.shell
    (hflush : l ≠ s.tl → ∀ x ∈ tl'.flushCompletions, x ∈ (s.logs l).flushCompletions)
    (hnext : l ≠ s.tl → tl'.nextCompletions = (s.logs l).nextCompletions)
    (htlFlush : ∀ x ∈ tl'.flushCompletions,
      x ∈ (s.logs l).flushCompletions ∨ ∃ c, x = .caller c)
    (htlNext : ∀ x ∈ tl'.nextCompletions, x ∈ (s.logs l).nextCompletions ∨ ∃ c, x = .caller c)
    (nr : Nat) (inv : List (Nat × Bool)) :
    Shell s (s.logStep l tl' (rest ++ us) durable' nr inv) := by
  refine ⟨rfl, rfl, rfl, rfl, rfl, rfl, rfl, hs.stored, ?_, ?_, ?_, ?_, ?_⟩
  · intro k
    by_cases hk : k = l
    · subst hk
      simpa using hs.keeps
    · simpa [hk] using Keeps.refl (s.logs k)
  · intro k hk
    by_cases hkl : k = l
    · subst hkl
      simpa using hflush hk
    · simp [hkl]
  · intro k hk
    by_cases hkl : k = l
    · subst hkl
      simpa using hnext hk
    · simp [hkl]
  · by_cases htl : s.tl = l
    · subst htl
      simpa using htlFlush
    · simpa [htl] using fun x hx => Or.inl hx
  · by_cases htl : s.tl = l
    · subst htl
      simpa using htlNext
    · simpa [htl] using fun x hx => Or.inl hx

theorem LogStep.unfaulted (nr : Nat)
    (inv : List (Nat × Bool)) : Unfaulted s (s.logStep l tl' (rest ++ us) durable' nr inv) := by
  intro t ht old' used i left hcont hfaulted
  by_cases htl : s.tl = l
  · subst htl
    by_contra hfault
    have hnone := hs.fault rfl hfaulted (by simpa using hfault) t ht
    simp [hcont, Cont.isSwitching] at hnone
  · simpa [htl] using hfaulted

end

section

variable (h : Core s S m H)
include h

section

variable (hs : LogStep s S l old us rest durable' tl')
include hs

theorem Core.log_logStep :
    ∀ k < s.nlogs, LogInv (demand s.calls S) durable' ((rest ++ us).filter (Task.mine k))
      (update s.logs l tl' k) := by
  intro k hk
  by_cases hkl : k = l
  · subst hkl
    simpa [filter_append, hs.new.filter_self] using hs.inv
  · simpa [hkl] using (h.log k hk).mono hs.stored (hs.others hkl) fun _ _ _ hn => hn

theorem Core.fresh_logStep :
    ∀ k, s.nlogs ≤ k → (rest ++ us).filter (Task.mine k) = [] := by
  intro k hk
  have hkl : k ≠ l := by
    have hlt := hs.lt
    omega
  have hnil := hs.others hkl
  rw [h.fresh k hk] at hnil
  exact nil_perm.mp hnil

theorem Core.logStep
    (hflush : tl'.flushCompletions = (s.logs l).flushCompletions)
    (hnext : tl'.nextCompletions = (s.logs l).nextCompletions) (nr : Nat) :
    Core (s.logStep l tl' (rest ++ us) durable' nr s.invoked) S m H := by
  refine h.frame_same (hs.shell (fun _ x hx => hflush ▸ hx) (fun _ => hnext) ?_ ?_ nr s.invoked)
    (hs.unfaulted nr s.invoked) rfl ?_ ?_ hs.compaction (h.log_logStep hs) (h.fresh_logStep hs)
  · exact fun x hx => .inl (hflush ▸ hx)
  · exact fun x hx => .inl (hnext ▸ hx)
  · intro k
    by_cases hk : k = l
    · subst hk
      simpa using hflush
    · simp [hk]
  · by_cases htl : s.tl = l
    · subst htl
      simpa using hnext
    · simp [htl]

end

theorem Core.lt_of_mine (ht : t ∈ s.tasks) (hmine : t.mine l = true) : l < s.nlogs := by
  by_contra hlt
  have hmem : t ∈ s.tasks.filter (Task.mine l) := mem_filter.mpr ⟨ht, hmine⟩
  rw [h.fresh l (Nat.le_of_not_lt hlt)] at hmem
  exact not_mem_nil hmem

theorem Core.log_cons (hperm : s.tasks.Perm ([t] ++ rest))
    (hmine : t.mine l = true) :
    LogInv (demand s.calls S) s.durable (t :: rest.filter (Task.mine l)) (s.logs l) := by
  have hl := h.lt_of_mine (hperm.mem_iff.mpr (by simp)) hmine
  have hfilter := hperm.filter (Task.mine l)
  rw [filter_append, filter_singleton, hmine] at hfilter
  exact (h.log l hl).mono (fun _ hb => hb) hfilter fun _ _ _ hn => hn

end

theorem stored_cons {durable : List (Write Byte)} (w : Write Byte) (b : Byte)
    (h : Stored durable b) : Stored (w :: durable) b := by
  obtain ⟨u, hu, hb⟩ := h
  exact ⟨u, mem_cons_of_mem _ hu, hb⟩

theorem keeps_joinedLog (tl : Log) (ok : Bool) : Keeps tl (Sys.joinedLog tl ok) :=
  ⟨fun h => h, .rfl, fun _ h => h, fun _ h => h⟩

theorem mine_singleton (h : t.mine l = true) : Mine l [t] := by
  intro u hu
  rwa [mem_singleton.mp hu]

theorem Core.join (h : Core s S m H) {w : Write Byte}
    (hperm : s.tasks.Perm ([.storage w (.join l)] ++ rest)) :
    Core (({ s with tasks := rest, durable := w :: s.durable } : Sys).mergeJoin l true) S m H := by
  have hmine : (Task.storage w (.join l)).mine l = true := by
    simp [Task.mine]
  have hl := h.lt_of_mine (hperm.mem_iff.mpr (by simp)) hmine
  have hinv := (h.log_cons hperm hmine).joined_ok (l := l) rfl (stored_cons w)
    fun b hb => ⟨w, by simp, hb⟩
  refine h.logStep ⟨hl, hperm, mine_singleton hmine, mine_joinTasks l _, stored_cons w,
    keeps_joinedLog _ true, ?_, hinv⟩ rfl rfl s.nrecords
  intro _ hfaulted hfault
  simp [Sys.joinedLog, hfaulted] at hfault

theorem Core.join_failed (h : Core s S m H) (hperm : s.tasks.Perm ([t] ++ rest))
    (hmine : t.mine l = true) (hstorage : t.isStorage = true)
    (hnext : (s.logs l).nextCompletions = [])
    (hfault : (s.logs l).faulted = false → NoSwitching s) :
    Core (({ s with tasks := rest } : Sys).mergeJoin l false) S m H := by
  have hl := h.lt_of_mine (hperm.mem_iff.mpr (by simp)) hmine
  have hinv := (h.log_cons hperm hmine).joined_failed (l := l) hstorage hnext
  exact h.logStep ⟨hl, hperm, mine_singleton hmine, mine_joinTasks l _, fun _ hb => hb,
    keeps_joinedLog _ false, fun _ hfaulted _ => hfault hfaulted, hinv⟩ rfl rfl s.nrecords

theorem Core.link (h : Core s S m H) {w : Write Byte} {ext : Ext Byte} {start span : Nat}
    (hperm : s.tasks.Perm ([.storage w (.link l ext start span)] ++ rest)) :
    Core { s with
      tasks := rest ++ [.storage (ext.push (.link start span)).flush (.join l)]
      durable := w :: s.durable } S m H := by
  have hmine : (Task.storage w (.link l ext start span)).mine l = true := by
    simp [Task.mine]
  have hl := h.lt_of_mine (hperm.mem_iff.mpr (by simp)) hmine
  have hinv := (h.log_cons hperm hmine).linked (stored_cons w)
  have hstep := h.logStep ⟨hl, hperm, mine_singleton hmine, mine_singleton (by simp [Task.mine]),
    stored_cons w, Keeps.refl _, fun _ hfaulted hfault => by simp [hfaulted] at hfault, hinv⟩
    rfl rfl s.nrecords
  simpa [Sys.logStep, Sys.setLog] using hstep

theorem FlushShape.eq_nil {tl : Log} {ts : List Task} (h : FlushShape tl ts)
    (hflushing : tl.flushing = false) : ts = [] := by
  by_contra hne
  simp [h.flushing_iff.mpr hne] at hflushing

theorem LogInv.no_waiters {D : Completion → Nat → Prop} {durable : List (Write Byte)}
    {ts : List Task} {tl : Log} (h : LogInv D durable ts tl) (hflushing : tl.flushing = false)
    (hstate : tl.state ≠ .compacting) : tl.flushCompletions = [] ∧ tl.nextCompletions = [] := by
  constructor
  · by_contra hne
    exact (h.waiters hne).elim (by simp [hflushing]) hstate
  · by_contra hne
    exact (h.next hne).2.2.elim (by simp [hflushing]) hstate

theorem keeps_flushedLog {tl tl₀ : Log} (hstate : tl.state ≠ .compacting)
    (hsame : tl₀.state = tl.state) (hrecords : tl₀.records = tl.records) (st : Staging Byte)
    (ok : Bool) : Keeps tl (Sys.flushedLog tl₀ st ok) := by
  refine ⟨?_, ?_, fun _ h => hrecords ▸ h, fun h => (hstate h).elim⟩
  · cases ok with
    | true => exact fun h => hsame ▸ h
    | false =>
      intro h
      cases h
  · cases ok with
    | true => exact hsame ▸ .rfl
    | false => exact ⟨nofun, fun h => (hstate h).elim⟩

/-- The log in use takes no failure while completions are handed over to it. -/
def SafeFault (s : Sys) (l : Nat) (s' : Sys) : Prop :=
  l = s.tl → (s.logs l).faulted = false → (s'.logs l).faulted = true → NoSwitching s

variable {space : List Nat}

theorem Core.startFlush (h : Core s S m H) (hl : l < s.nlogs) (hdirty : (s.logs l).dirty = true)
    (hflushing : (s.logs l).flushing = false) (hstate : (s.logs l).state ≠ .compacting)
    (hfault : SafeFault s l (s.startFlush l space)) :
    Core (s.startFlush l space) S m H := by
  have hlog := h.log l hl
  have hts := hlog.shape.eq_nil hflushing
  obtain ⟨hflush, hnext⟩ := hlog.no_waiters hflushing hstate
  have hinv : LogInv (demand s.calls S) s.durable
      (Sys.flushTasks l (s.frames (s.logs l) space).1)
      (Sys.flushedLog (s.logs l) (s.frames (s.logs l) space).1 (s.frames (s.logs l) space).2) :=
    LogInv.start l hdirty hnext (fun hfaulted => hts ▸ hlog.sound hfaulted)
      (by simp [hflush]) rfl
  have hstep : LogStep s S l [] (Sys.flushTasks l (s.frames (s.logs l) space).1) s.tasks s.durable
      (Sys.flushedLog (s.logs l) (s.frames (s.logs l) space).1 (s.frames (s.logs l) space).2) := by
    refine ⟨hl, .refl _, mine_nil, mine_flushTasks l _, fun _ hb => hb,
      keeps_flushedLog hstate (by rfl) (by rfl) _ _, ?_, ?_⟩
    · simpa [SafeFault, Sys.startFlush, Sys.setLog] using hfault
    · rw [hts]
      exact hinv
  exact h.logStep hstep rfl rfl s.nrecords

theorem Core.logFlush_none (h : Core s S m H) (hl : l < s.nlogs)
    (hfault : SafeFault s l (s.logFlush l none space).1) :
    Core (s.logFlush l none space).1 S m H := by
  rcases s.logFlush_cases l none space with ⟨-, -, heq⟩ | ⟨-, heq⟩ |
    ⟨hdirty, hflushing, hstate, heq⟩
  · rw [heq]
    simpa using h
  · rw [heq]
    simpa using h
  · rw [heq] at hfault ⊢
    simp only [Option.toList_none, Sys.addFlush_nil, Sys.setLog_self] at hfault ⊢
    exact h.startFlush hl hdirty hflushing hstate hfault

/-! ## A caller's completion is taken -/

theorem Core.wanted (h : Core s S m H) {c n : Nat} (hn : n < s.calls.getD c 0) :
    n < s.writes ∧ Has (s.logs s.tl) n := by
  have hlt : c < s.calls.length := by
    by_contra hlt
    simp [getElem?_eq_none (Nat.le_of_not_lt hlt)] at hn
  have hle := h.calls (s.calls.getD c 0) (by simp [hlt])
  exact ⟨by omega, h.has n (by omega)⟩

theorem callers_append (cs ds : List Completion) : callers (cs ++ ds) = callers cs ++ callers ds :=
  filterMap_append

@[simp] theorem callers_nil : callers [] = [] := rfl

@[simp] theorem callers_caller (c : Nat) : callers [.caller c] = [c] := rfl

theorem Core.moveTokens (h : Core s S m H) (hs : LogStep s S s.tl old us rest durable' tl')
    (hflush : ∀ x ∈ tl'.flushCompletions, ∃ c, x = .caller c)
    (hnext : ∀ x ∈ tl'.nextCompletions, ∃ c, x = .caller c)
    (hwaiters : s.temp ≠ none → ∀ c, .caller c ∈ tl'.flushCompletions →
      .caller c ∈ (s.logs s.tl).flushCompletions ∨ (s.logs s.tl).restaged = false)
    (hcount : ∀ a, (callers tl'.flushCompletions ++ callers tl'.nextCompletions ++ H').count a =
      (callers (s.logs s.tl).flushCompletions ++ callers (s.logs s.tl).nextCompletions ++
        H).count a) :
    Core (s.logStep s.tl tl' (rest ++ us) durable' s.nrecords s.invoked) S m H' := by
  have hshell := hs.shell (fun hne => (hne rfl).elim) (fun hne => (hne rfl).elim)
    (fun x hx => .inr (hflush x hx)) (fun x hx => .inr (hnext x hx)) s.nrecords s.invoked
  refine h.frame hshell (hs.unfaulted _ _) (h.log_logStep hs) (h.fresh_logStep hs) ?_ ?_ ?_ ?_ ?_
  · intro t ht
    refine hshell.phase (h.temp t ht).phase ?_ hs.compaction
    simp [(h.temp t ht).ne]
  · exact fun htemp => perm_nil.mp (h.noTemp htemp ▸ hs.compaction)
  · intro htemp c hc n hn
    obtain ⟨t, ht⟩ := Option.ne_none_iff_exists'.mp htemp
    change Completion.caller c ∈ (update s.logs s.tl tl' s.tl).flushCompletions at hc
    rw [update_self] at hc
    rcases hwaiters htemp c hc with hc | hrestaged
    · exact (h.temp t ht).waiters c hc n hn
    · exact (h.temp t ht).all hrestaged n (h.wanted hn).1
  · intro call hcall htrue n hn
    obtain ⟨hwritten, hS⟩ := h.ok call hcall htrue n hn
    exact ⟨hshell.writtenIn hwritten, hS⟩
  · have haccount := h.account
    rw [perm_iff_count] at haccount ⊢
    intro a
    have hsum := haccount a
    have hmoved := hcount a
    unfold waiting at hsum ⊢
    rw [h.holds_eq hshell]
    change List.count a (s.invoked.map Prod.fst ++ (callers
      (update s.logs s.tl tl' s.tl).flushCompletions ++ callers
      (update s.logs s.tl tl' s.tl).nextCompletions ++ _) ++ H') = _
    rw [update_self, ← hsum]
    simp only [count_append] at hmoved ⊢
    omega

theorem Core.tl_flush (h : Core s S m H) :
    ∀ x ∈ (s.logs s.tl).flushCompletions, ∃ c, x = .caller c := by
  intro x hx
  cases x with
  | caller c => exact ⟨c, rfl⟩
  | rebuild old new first start span =>
    have htemp := h.rebuild s.tl h.tl_lt old new first start span hx
    exact ((h.temp s.tl htemp).ne rfl).elim

theorem Core.tl_next (h : Core s S m H) :
    ∀ x ∈ (s.logs s.tl).nextCompletions, ∃ c, x = .caller c := by
  intro x hx
  cases x with
  | caller c => exact ⟨c, rfl⟩
  | rebuild old new first start span => exact (h.next s.tl h.tl_lt old new first start span hx).elim

theorem Core.give (h : Core s S m (c :: H)) (hs : LogStep s S s.tl [] us s.tasks s.durable tl')
    (hlists : tl'.flushCompletions = (s.logs s.tl).flushCompletions ++ [.caller c] ∧
          tl'.nextCompletions = (s.logs s.tl).nextCompletions ∧
          (s.temp ≠ none → (s.logs s.tl).restaged = false) ∨
        tl'.flushCompletions = (s.logs s.tl).flushCompletions ∧
          tl'.nextCompletions = (s.logs s.tl).nextCompletions ++ [.caller c]) :
    Core (s.logStep s.tl tl' (s.tasks ++ us) s.durable s.nrecords s.invoked) S m H := by
  have happend : ∀ cs : List Completion, (∀ x ∈ cs, ∃ c, x = .caller c) →
      ∀ x ∈ cs ++ [.caller c], ∃ c, x = .caller c := by
    intro cs hcs x hx
    exact (mem_append.mp hx).elim (hcs x) fun hx => ⟨c, mem_singleton.mp hx⟩
  rcases hlists with ⟨hflush, hnext, hrestaged⟩ | ⟨hflush, hnext⟩
  · refine h.moveTokens hs (hflush ▸ happend _ h.tl_flush) (hnext ▸ h.tl_next)
      (fun htemp _ _ => .inr (hrestaged htemp)) fun a => ?_
    rw [hflush, hnext]
    simp only [callers_append, callers_caller, count_append, count_cons, count_nil]
    omega
  · refine h.moveTokens hs (hflush ▸ h.tl_flush) (hnext ▸ happend _ h.tl_next)
      (fun _ _ hd => .inl (hflush ▸ hd)) fun a => ?_
    rw [hflush, hnext]
    simp only [callers_append, callers_caller, count_append, count_cons, count_nil]
    omega

theorem Phase.congr {s' : Sys} {t : Nat} (h : Phase s S t) (hlog : s'.logs t = s.logs t)
    (htl : s'.tl = s.tl) (htasks : s'.tasks = s.tasks) (hdurable : s'.durable = s.durable) :
    Phase s' S t := by
  have hwritten : ∀ n, WrittenIn s t n → WrittenIn s' t n := by
    unfold WrittenIn
    rw [hlog, hdurable]
    exact fun _ hn => hn
  cases h with
  | flushing first start span hflush hnone =>
    refine .flushing first start span ?_ ?_
    · rw [hlog, hflush, htl]
    · rw [htasks, hnone]
  | rebuilt first start span ok hflush hone hS =>
    refine .rebuilt first start span ok ?_ ?_ fun hok n hn => hwritten n (hS hok n hn)
    · rw [hlog, hflush]
    · rw [htasks, hone, htl]
  | linking w hflush hone hS =>
    refine .linking w ?_ ?_ fun n hn => hwritten n (hS n hn)
    · rw [hlog, hflush]
    · rw [htasks, hone, htl]

theorem Core.invoked (h : Core s S m (cs ++ H)) {ok : Bool}
    (hwritten : ok = true → ∀ c ∈ cs, ∀ n < s.calls.getD c 0,
      WrittenIn s s.tl n ∧ (s.temp ≠ none → n ∈ S)) :
    Core { s with invoked := s.invoked ++ cs.map (·, ok) } S m H := by
  refine { h with temp := ?_, ok := ?_, account := ?_ }
  · intro t ht
    have hc := h.temp t ht
    exact { hc with phase := hc.phase.congr rfl rfl rfl rfl }
  · intro call hcall htrue n hn
    rcases mem_append.mp hcall with hcall | hcall
    · exact h.ok call hcall htrue n hn
    · obtain ⟨c, hc, rfl⟩ := mem_map.mp hcall
      exact hwritten htrue c hc n hn
  · have haccount := h.account
    rw [perm_iff_count] at haccount ⊢
    intro a
    rw [← haccount a]
    have hmap : (cs.map fun c => (c, ok)).map Prod.fst = cs := by
      simp [comp_def]
    change List.count a ((s.invoked ++ cs.map (·, ok)).map Prod.fst ++ waiting s ++ H) = _
    rw [map_append, hmap]
    simp only [count_append]
    omega

theorem Sys.startFlush_setLog (s : Sys) (l : Nat) (tl : Log) (space : List Nat) :
    (s.setLog l tl).startFlush l space =
      s.logStep l (Sys.flushedLog tl (s.frames tl space).1 (s.frames tl space).2)
        (s.tasks ++ Sys.flushTasks l (s.frames tl space).1) s.durable s.nrecords s.invoked := by
  simp [Sys.startFlush, Sys.setLog, Sys.logStep, Sys.frames]

theorem keeps_pushCompletion (tl : Log) (c : Option Completion) :
    Keeps tl (Sys.pushCompletion tl c) := by
  unfold Sys.pushCompletion
  split_ifs <;> exact ⟨fun h => h, .rfl, fun _ h => h, fun _ h => h⟩

theorem Core.logFlush_caller (h : Core s S m (c :: H)) (hfaulted : (s.logs s.tl).faulted = false)
    (hfault : SafeFault s s.tl (s.logFlush s.tl (some (.caller c)) space).1) :
    Core (s.logFlush s.tl (some (.caller c)) space).1 S m H := by
  have hlog := h.log s.tl h.tl_lt
  have hwanted : ∀ n, demand s.calls S (.caller c) n → ∃ r ∈ (s.logs s.tl).records, n ∈ r.writes :=
    fun n hn => (h.wanted hn).2
  rcases s.logFlush_cases s.tl (some (.caller c)) space with
    ⟨hdirty, hstate, heq⟩ | ⟨hbusy, heq⟩ | ⟨hdirty, hflushing, hstate, heq⟩
  · -- nothing is staged, so all records are on storage
    have hflushing : (s.logs s.tl).flushing = false := by
      by_contra hflushing
      simp [hlog.dirty (by simpa using hflushing)] at hdirty
    have hstaging : (s.logs s.tl).tupleStaging = [] := by
      by_contra hne
      simp [(hlog.sound hfaulted).dirty hne] at hdirty
    have hinvoked : Core { s with invoked := s.invoked ++ [c].map (·, true) } S m H :=
      Core.invoked h ?_
    · simpa [heq, Sys.invoke, rebuilds] using hinvoked
    · intro _ d hd n hn
      rw [mem_singleton.mp hd] at hn
      obtain ⟨r, hr, hmem⟩ := hwanted n hn
      exact ⟨⟨r, hr, hmem, hlog.stored_of_idle hfaulted hflushing hstaging r hr⟩,
        fun htemp => (hstate (h.compacting.mpr htemp)).elim⟩
  · have hinv := hlog.pushCompletion hbusy hfaulted hwanted
    have hstep : LogStep s S s.tl [] [] s.tasks s.durable
        (Sys.pushCompletion (s.logs s.tl) (some (.caller c))) := by
      refine ⟨h.tl_lt, .refl _, mine_nil, mine_nil, fun _ hb => hb, keeps_pushCompletion _ _, ?_,
        by simpa using hinv⟩
      intro _ _ hfault'
      refine (Bool.eq_false_iff.mp hfaulted ?_).elim
      unfold Sys.pushCompletion at hfault'
      split_ifs at hfault' <;> exact hfault'
    have hgive := h.give hstep ?_
    · rw [heq]
      simpa [Sys.logStep, Sys.setLog] using hgive
    · unfold Sys.pushCompletion
      split_ifs with hrestaged
      · exact .inr ⟨rfl, rfl⟩
      · exact .inl ⟨rfl, rfl, fun _ => by simpa using hrestaged⟩
  · have hts := hlog.shape.eq_nil hflushing
    obtain ⟨hflush, hnext⟩ := hlog.no_waiters hflushing hstate
    rw [heq] at hfault ⊢
    rw [Sys.startFlush_setLog] at hfault ⊢
    refine h.give ⟨h.tl_lt, .refl _, mine_nil, mine_flushTasks _ _, fun _ hb => hb,
      keeps_flushedLog hstate (by rfl) (by rfl) _ _, ?_, ?_⟩ ?_
    · simpa [SafeFault] using hfault
    · rw [hts]
      refine LogInv.start s.tl hdirty hnext ?_ ?_ rfl
      · exact fun _ => { hts ▸ hlog.sound hfaulted with }
      · intro x hx
        rw [Sys.addFlush, hflush] at hx
        rw [mem_singleton.mp hx]
        exact ⟨hfaulted, hwanted⟩
    · refine .inl ⟨rfl, rfl, fun htemp => ?_⟩
      exact (hstate (h.compacting.mpr htemp)).elim

end LogStep

end Jerboa.Tfs.Tlog
