import Jerboa.Tfs.Tlog.Flush
import Mathlib.Data.List.Perm.Basic

/-!
# What holds of one log

The invariant of a single log, over its own fields and the tasks of its flush.
While no storage write of it has failed, every byte of a staged record is in
the staging buffer, on storage, or covered by a write in flight; and the
completions that a flush will call want records that are past the staging
buffer.
-/

namespace Jerboa.Tfs.Tlog

open List

def Task.mine (l : Nat) : Task → Bool
  | .storage _ (.join k) => k = l
  | .storage _ (.link k ..) => k = l
  | .storage _ (.switch ..) => false
  | .flushComplete k _ => k = l
  | .rebuildComplete .. => false

def Task.isStorage : Task → Bool
  | .storage .. => true
  | _ => false

def Stored (durable : List (Write Byte)) (b : Byte) : Prop := ∃ w ∈ durable, b ∈ w.data

/-- The byte is in a storage write of the flush, or in the write that follows
it. -/
def Task.Covers (b : Byte) : Task → Prop
  | .storage w (.join _) => b ∈ w.data
  | .storage _ (.link _ old _ _) => b ∈ old.unwritten
  | _ => False

def Sent (durable : List (Write Byte)) (ts : List Task) (b : Byte) : Prop :=
  Stored durable b ∨ ∃ t ∈ ts, t.Covers b

/-- The update can be read from a record that is past the staging buffer. -/
def Carried (durable : List (Write Byte)) (ts : List Task) (tl : Log) (n : Nat) : Prop :=
  ∃ r ∈ tl.records, n ∈ r.writes ∧ ∀ b ∈ r.bytes, Sent durable ts b

/-- The tasks of a log's flush: none, storage requests as counted by its merge,
or the scheduled `log_flush_complete`. -/
inductive FlushShape (tl : Log) : List Task → Prop where
  | idle (h : tl.flushing = false) : FlushShape tl []
  | writing {ts : List Task} (h : tl.flushing = true) (hcount : tl.count = ts.length)
      (hne : ts ≠ []) (hstorage : ∀ t ∈ ts, t.isStorage = true) : FlushShape tl ts
  | ending (h : tl.flushing = true) (l : Nat) : FlushShape tl [.flushComplete l !tl.failed]

structure Sound (durable : List (Write Byte)) (ts : List Task) (tl : Log) : Prop where
  lengths : totalLength tl.encodingLengths = tl.tupleStaging.length
  lengths_pos : ∀ n ∈ tl.encodingLengths, 0 < n
  current : tl.current.WF
  links : ∀ w l old start span, .storage w (.link l old start span) ∈ ts → old.WF
  dirty : tl.tupleStaging ≠ [] → tl.dirty = true
  restaged : tl.tupleStaging ≠ [] → tl.flushing = true → tl.restaged = true
  sent : ∀ r ∈ tl.records, ∀ b ∈ r.bytes, b ∈ tl.tupleStaging ∨ Sent durable ts b

/-- The invariant of a log.  `D x n` says that the completion `x` waits for the
update `n`. -/
structure LogInv (D : Completion → Nat → Prop) (durable : List (Write Byte)) (ts : List Task)
    (tl : Log) : Prop where
  shape : FlushShape tl ts
  dirty : tl.flushing = true → tl.dirty = true
  next : tl.nextCompletions ≠ [] → tl.restaged = true ∧ tl.faulted = false ∧
    (tl.flushing = true ∨ tl.state = .compacting)
  waiters : tl.flushCompletions ≠ [] → tl.flushing = true ∨ tl.state = .compacting
  tokens : ∀ x ∈ tl.flushCompletions, tl.flushing = true →
    tl.failed = true ∨ (tl.faulted = false ∧ ∀ n, D x n → Carried durable ts tl n)
  sound : tl.faulted = false → Sound durable ts tl

section

variable {D D' : Completion → Nat → Prop} {durable durable' : List (Write Byte)}
  {ts ts' : List Task} {tl : Log}

variable {b : Byte}

theorem Sent.mono (h : Sent durable ts b) (hdurable : ∀ b, Stored durable b → Stored durable' b)
    (hts : ∀ t ∈ ts, t ∈ ts') :
    Sent durable' ts' b := by
  rcases h with h | ⟨t, ht, hb⟩
  · exact .inl (hdurable b h)
  · exact .inr ⟨t, hts t ht, hb⟩

variable {n : Nat}

theorem Carried.mono (h : Carried durable ts tl n)
    (hsent : ∀ b, Sent durable ts b → Sent durable' ts' b) : Carried durable' ts' tl n := by
  obtain ⟨r, hr, hn, hb⟩ := h
  exact ⟨r, hr, hn, fun b h => hsent b (hb b h)⟩

theorem FlushShape.perm (h : FlushShape tl ts) (hperm : ts.Perm ts') : FlushShape tl ts' := by
  cases h with
  | idle h =>
    rw [nil_perm.mp hperm]
    exact .idle h
  | writing h hcount hne hstorage =>
    refine .writing h (hcount.trans hperm.length_eq) ?_ ?_
    · intro hnil
      rw [hnil] at hperm
      exact hne hperm.eq_nil
    · exact fun t ht => hstorage t (hperm.mem_iff.mpr ht)
  | ending h l =>
    rw [← singleton_perm.mp hperm]
    exact .ending h l

theorem FlushShape.congr {tl' : Log} (h : FlushShape tl ts) (hflushing : tl'.flushing = tl.flushing)
    (hcount : tl'.count = tl.count) (hfailed : tl'.failed = tl.failed) : FlushShape tl' ts := by
  cases h with
  | idle h => exact .idle (hflushing.trans h)
  | writing h hlength hne hstorage =>
    exact .writing (hflushing.trans h) (hcount.trans hlength) hne hstorage
  | ending h l =>
    rw [← hfailed]
    exact .ending (hflushing.trans h) l

theorem FlushShape.flushing_iff (h : FlushShape tl ts) : tl.flushing = true ↔ ts ≠ [] := by
  cases h with
  | idle h | ending h => simp [h]
  | writing h _ hne => simp [h, hne]

theorem Sound.mono (h : Sound durable ts tl)
    (hdurable : ∀ b, Stored durable b → Stored durable' b) (hperm : ts.Perm ts') :
    Sound durable' ts' tl := by
  have hts : ∀ t ∈ ts, t ∈ ts' := fun t ht => hperm.mem_iff.mp ht
  refine { h with links := ?_, sent := ?_ }
  · intro w l old start span hmem
    exact h.links w l old start span (hperm.mem_iff.mpr hmem)
  · intro r hr b hb
    exact (h.sent r hr b hb).imp_right (fun hs => hs.mono hdurable hts)

theorem LogInv.mono (h : LogInv D durable ts tl)
    (hdurable : ∀ b, Stored durable b → Stored durable' b) (hperm : ts.Perm ts')
    (hD : ∀ x ∈ tl.flushCompletions, ∀ n, D' x n → D x n) : LogInv D' durable' ts' tl := by
  have hts : ∀ t ∈ ts, t ∈ ts' := fun t ht => hperm.mem_iff.mp ht
  refine ⟨h.shape.perm hperm, h.dirty, h.next, h.waiters, ?_, ?_⟩
  · intro x hx hflushing
    refine (h.tokens x hx hflushing).imp_right ?_
    rintro ⟨hfaulted, hcarried⟩
    exact ⟨hfaulted, fun n hn => (hcarried n (hD x hx n hn)).mono
      fun b hb => hb.mono hdurable hts⟩
  · exact fun hfaulted => (h.sound hfaulted).mono hdurable hperm

theorem Sent.stored (h : Sent durable ts b) (hts : ∀ t ∈ ts, t.isStorage = false) :
    Stored durable b := by
  rcases h with h | ⟨t, ht, hb⟩
  · exact h
  · have hstorage := hts t ht
    cases t with
    | storage => cases hstorage
    | flushComplete | rebuildComplete => exact hb.elim

theorem LogInv.stored_of_idle (h : LogInv D durable ts tl) (hfaulted : tl.faulted = false)
    (hflushing : tl.flushing = false) (hstaging : tl.tupleStaging = []) :
    ∀ r ∈ tl.records, ∀ b ∈ r.bytes, Stored durable b := by
  have hts : ts = [] := by
    by_contra hne
    simp [h.shape.flushing_iff.mpr hne] at hflushing
  intro r hr b hb
  have hsent := (h.sound hfaulted).sent r hr b hb
  simpa [hstaging, hts, Sent] using hsent

/-- The log when a record is staged and `log_set_dirty` has set its flags. -/
def stagedLog (tl : Log) (r : Record) (e : Encoding) : Log :=
  { tl with
    records := tl.records ++ [r]
    tupleStaging := tl.tupleStaging ++ r.bytes
    encodingLengths := tl.encodingLengths ++ [e.length]
    totalEntries := tl.totalEntries + e.entries
    obsoleteEntries := tl.obsoleteEntries + e.obsolete
    restaged := tl.restaged || (tl.flushing || tl.state = .compacting)
    dirty := true
    timer := tl.timer || !tl.dirty }

theorem Carried.staged (h : Carried durable ts tl n) (r : Record) (e : Encoding) :
    Carried durable ts (stagedLog tl r e) n := by
  obtain ⟨r', hr, hn, hb⟩ := h
  exact ⟨r', mem_append_left _ hr, hn, hb⟩

theorem LogInv.staged (h : LogInv D durable ts tl) {r : Record} {e : Encoding}
    (hr : r.length = e.length) : LogInv D durable ts (stagedLog tl r e) := by
  refine ⟨h.shape.congr rfl rfl rfl, fun _ => rfl, ?_, h.waiters, ?_, ?_⟩
  · intro hnext
    obtain ⟨hrestaged, hrest⟩ := h.next hnext
    exact ⟨by simp [stagedLog, hrestaged], hrest⟩
  · intro x hx hflushing
    refine (h.tokens x hx hflushing).imp_right ?_
    rintro ⟨hfaulted, hcarried⟩
    exact ⟨hfaulted, fun n hn => (hcarried n hn).staged r e⟩
  · intro hfaulted
    have hsound := h.sound hfaulted
    refine ⟨?_, ?_, hsound.current, hsound.links, fun _ => rfl, ?_, ?_⟩
    · simp [stagedLog, Record.bytes, totalLength, hsound.lengths, hr]
    · intro n hn
      rcases mem_append.mp hn with hn | hn
      · exact hsound.lengths_pos n hn
      · rw [mem_singleton.mp hn]
        exact e.length_pos
    · intro _ hflushing
      change tl.flushing = true at hflushing
      simp [stagedLog, hflushing]
    · intro r' hr' b hb
      rcases mem_append.mp hr' with hr' | hr'
      · exact (hsound.sent r' hr' b hb).imp_left (mem_append_left _)
      · rw [mem_singleton.mp hr'] at hb
        exact .inl (mem_append_right _ hb)

section Start

variable {version : Version} {space : List Nat} {st : Staging Byte} {ok : Bool}

theorem covers_flushTasks {l : Nat} (hb : b ∈ st.carried) :
    ∃ t ∈ Sys.flushTasks l st, t.Covers b := by
  simp only [Staging.carried, mem_append, mem_flatMap] at hb
  rcases hb with ⟨k, hk, hb⟩ | hb
  · refine ⟨.storage k.header (.link l k.old k.start k.span), ?_, hb⟩
    exact mem_append_left _ (mem_map.mpr ⟨k, hk, rfl⟩)
  · exact ⟨.storage st.ext.flush (.join l), by simp [Sys.flushTasks], hb⟩

theorem Sound.moved (h : Sound durable [] tl)
    (hst : Staging.logWriteInternal version tl.encodingLengths
      ⟨tl.current, tl.tupleStaging, space, []⟩ = (st, true)) :
    st.WF ∧ st.tuples = [] ∧ ∀ b ∈ tl.tupleStaging, b ∈ st.carried := by
  have hmoved := Staging.moved_logWriteInternal ⟨h.current, by simp⟩ h.lengths_pos hst
  refine ⟨hmoved.wf, ?_, ?_⟩
  · rw [hmoved.tuples, h.lengths, drop_length]
  · intro b hb
    apply hmoved.carried
    rw [h.lengths, take_length]
    exact .inl hb

theorem isStorage_flushTasks (l : Nat) : ∀ t ∈ Sys.flushTasks l st, t.isStorage = true := by
  intro t ht
  rcases mem_append.mp ht with ht | ht
  · obtain ⟨k, -, rfl⟩ := mem_map.mp ht
    rfl
  · rw [mem_singleton.mp ht]
    rfl

theorem LogInv.start (l : Nat) (hdirty : tl.dirty = true) (hnext : tl.nextCompletions = [])
    (hsound : tl.faulted = false → Sound durable [] tl)
    (htokens : ∀ x ∈ tl.flushCompletions, tl.faulted = false ∧
      ∀ n, D x n → ∃ r ∈ tl.records, n ∈ r.writes)
    (hst : Staging.logWriteInternal version tl.encodingLengths
      ⟨tl.current, tl.tupleStaging, space, []⟩ = (st, ok)) :
    LogInv D durable (Sys.flushTasks l st) (Sys.flushedLog tl st ok) := by
  have hsent : ok = true → tl.faulted = false → ∀ r ∈ tl.records, ∀ b ∈ r.bytes,
      Sent durable (Sys.flushTasks l st) b := by
    rintro rfl hfaulted r hr b hb
    obtain ⟨-, -, hcarried⟩ := (hsound hfaulted).moved hst
    rcases (hsound hfaulted).sent r hr b hb with hstaged | hstored
    · exact .inr (covers_flushTasks (hcarried b hstaged))
    · exact .inl (hstored.stored (by simp))
  refine ⟨?_, fun _ => hdirty, fun hne => (hne hnext).elim, fun _ => .inl rfl, ?_, ?_⟩
  · exact .writing rfl (by simp [Sys.flushedLog, Sys.flushTasks]) (by simp [Sys.flushTasks])
      (isStorage_flushTasks l)
  · intro x hx _
    obtain ⟨hfaulted, hwanted⟩ := htokens x hx
    cases ok with
    | false => exact .inl rfl
    | true =>
      refine .inr ⟨by simp [Sys.flushedLog, hfaulted], fun n hn => ?_⟩
      obtain ⟨r, hr, hmem⟩ := hwanted n hn
      exact ⟨r, hr, hmem, hsent rfl hfaulted r hr⟩
  · intro hunfaulted
    obtain ⟨hfaulted, rfl⟩ : tl.faulted = false ∧ ok = true := by
      simpa [Sys.flushedLog] using hunfaulted
    obtain ⟨hwf, htuples, -⟩ := (hsound hfaulted).moved hst
    refine ⟨by simp [Sys.flushedLog, totalLength, htuples], by simp [Sys.flushedLog],
      Ext.wf_advance _, ?_, fun _ => hdirty, by simp [Sys.flushedLog, htuples], ?_⟩
    · intro w k old start span hmem
      rcases mem_append.mp hmem with hmem | hmem
      · obtain ⟨link, hlink, heq⟩ := mem_map.mp hmem
        cases heq
        exact hwf.links link hlink
      · cases mem_singleton.mp hmem
    · exact fun r hr b hb => .inr (hsent rfl hfaulted r hr b hb)

end Start

theorem LogInv.pushCompletion (h : LogInv D durable ts tl) {x : Completion}
    (hwaits : tl.flushing = true ∨ tl.state = .compacting) (hfaulted : tl.faulted = false)
    (hwanted : ∀ n, D x n → ∃ r ∈ tl.records, n ∈ r.writes) :
    LogInv D durable ts (Sys.pushCompletion tl (some x)) := by
  unfold Sys.pushCompletion
  split_ifs with hrestaged
  · exact ⟨h.shape.congr rfl rfl rfl, h.dirty, fun _ => ⟨hrestaged, hfaulted, hwaits⟩, h.waiters,
      h.tokens, fun _ => { h.sound hfaulted with }⟩
  · refine ⟨h.shape.congr rfl rfl rfl, h.dirty, h.next, fun _ => hwaits, ?_,
      fun _ => { h.sound hfaulted with }⟩
    intro y hy hflushing
    rcases mem_append.mp hy with hy | hy
    · exact h.tokens y hy hflushing
    · rw [mem_singleton.mp hy]
      -- nothing was staged since the flush started, so the buffer is empty
      have hsound := h.sound hfaulted
      have hstaging : tl.tupleStaging = [] := by
        by_contra hne
        exact hrestaged (hsound.restaged hne hflushing)
      refine .inr ⟨hfaulted, fun n hn => ?_⟩
      obtain ⟨r, hr, hmem⟩ := hwanted n hn
      refine ⟨r, hr, hmem, fun b hb => ?_⟩
      simpa [hstaging] using hsound.sent r hr b hb

/-! ## A storage request is done -/

section Done

variable {t : Task} {rest : List Task} {l : Nat}

theorem FlushShape.joined {ok : Bool} (h : FlushShape tl (t :: rest)) (ht : t.isStorage = true) :
    FlushShape (Sys.joinedLog tl ok) (rest ++ Sys.joinTasks l (Sys.joinedLog tl ok)) := by
  cases h with
  | ending => cases ht
  | writing h hcount hne hstorage =>
    have hrest : (Sys.joinedLog tl ok).count = rest.length := by
      simp [Sys.joinedLog, hcount]
    unfold Sys.joinTasks
    split_ifs with hzero
    · rw [eq_nil_of_length_eq_zero (hrest.symm.trans hzero)]
      have hflushing : (Sys.joinedLog tl ok).flushing = true := h
      exact .ending hflushing l
    · rw [append_nil]
      refine .writing h hrest ?_ fun t ht => hstorage t (mem_cons_of_mem _ ht)
      rintro rfl
      exact hzero hrest

theorem Sent.joined (h : Sent durable (t :: rest) b)
    (hdurable : ∀ b, Stored durable b → Stored durable' b)
    (hdone : ∀ b, t.Covers b → Stored durable' b) (hts : ∀ t ∈ rest, t ∈ ts') :
    Sent durable' ts' b := by
  rcases h with h | ⟨u, hu, hb⟩
  · exact .inl (hdurable b h)
  · rcases mem_cons.mp hu with rfl | hu
    · exact .inl (hdone b hb)
    · exact .inr ⟨u, hts u hu, hb⟩

theorem not_link_mem_joinTasks {w : Write Byte} {k : Nat} {old : Ext Byte} {start span : Nat} :
    .storage w (.link k old start span) ∉ Sys.joinTasks l tl := by
  unfold Sys.joinTasks
  split_ifs <;> simp

theorem LogInv.joined_ok (h : LogInv D durable (t :: rest) tl) (ht : t.isStorage = true)
    (hdurable : ∀ b, Stored durable b → Stored durable' b)
    (hdone : ∀ b, t.Covers b → Stored durable' b) :
    LogInv D durable' (rest ++ Sys.joinTasks l (Sys.joinedLog tl true))
      (Sys.joinedLog tl true) := by
  have hmono : ∀ b, Sent durable (t :: rest) b →
      Sent durable' (rest ++ Sys.joinTasks l (Sys.joinedLog tl true)) b :=
    fun b hb => hb.joined hdurable hdone fun u hu => mem_append_left _ hu
  have hfailed : (Sys.joinedLog tl true).failed = tl.failed := by
    simp [Sys.joinedLog]
  have hfaulted : (Sys.joinedLog tl true).faulted = tl.faulted := by
    simp [Sys.joinedLog]
  refine ⟨h.shape.joined ht, h.dirty, ?_, h.waiters, ?_, ?_⟩
  · rw [hfaulted]
    exact h.next
  · intro x hx hflushing
    rw [hfailed, hfaulted]
    exact (h.tokens x hx hflushing).imp_right (fun hx => ⟨hx.1, fun n hn => (hx.2 n hn).mono hmono⟩)
  · intro hunfaulted
    have hsound := h.sound (hfaulted ▸ hunfaulted)
    refine { hsound with
        links := ?_
        sent := fun r hr b hb => (hsound.sent r hr b hb).imp_right (hmono b) }
    intro w k old start span hmem
    rcases mem_append.mp hmem with hmem | hmem
    · exact hsound.links w k old start span (mem_cons_of_mem _ hmem)
    · exact (not_link_mem_joinTasks hmem).elim

theorem LogInv.joined_failed (h : LogInv D durable (t :: rest) tl) (ht : t.isStorage = true)
    (hnext : tl.nextCompletions = []) :
    LogInv D durable (rest ++ Sys.joinTasks l (Sys.joinedLog tl false))
      (Sys.joinedLog tl false) := by
  refine ⟨h.shape.joined ht, h.dirty, fun hne => (hne hnext).elim, h.waiters, ?_, ?_⟩
  · intro x hx hflushing
    exact .inl (by simp [Sys.joinedLog])
  · intro hfaulted
    simp [Sys.joinedLog] at hfaulted

theorem LogInv.linked {w : Write Byte} {old : Ext Byte} {start span : Nat}
    (h : LogInv D durable (.storage w (.link l old start span) :: rest) tl)
    (hdurable : ∀ b, Stored durable b → Stored durable' b) :
    LogInv D durable' (rest ++ [.storage (old.push (.link start span)).flush (.join l)]) tl := by
  have hmono : tl.faulted = false → ∀ b, Sent durable
    (.storage w (.link l old start span) :: rest) b →
      Sent durable' (rest ++ [.storage (old.push (.link start span)).flush (.join l)]) b := by
    intro hfaulted b hb
    have hold : old.WF := (h.sound hfaulted).links w l old start span (by simp)
    rcases hb with hb | ⟨u, hu, hb⟩
    · exact .inl (hdurable b hb)
    · rcases mem_cons.mp hu with rfl | hu
      · refine .inr ⟨_, mem_append_right _ (mem_singleton_self _), ?_⟩
        change b ∈ (old.push (.link start span)).unwritten
        rw [hold.unwritten_push]
        exact mem_append_left _ hb
      · exact .inr ⟨u, mem_append_left _ hu, hb⟩
  refine ⟨?_, h.dirty, h.next, h.waiters, ?_, ?_⟩
  · cases h.shape with
    | writing hflushing hcount hne hstorage =>
      refine .writing hflushing (by simpa using hcount) (by simp) ?_
      intro u hu
      rcases mem_append.mp hu with hu | hu
      · exact hstorage u (mem_cons_of_mem _ hu)
      · rw [mem_singleton.mp hu]
        rfl
  · intro x hx hflushing
    refine (h.tokens x hx hflushing).imp_right ?_
    rintro ⟨hfaulted, hcarried⟩
    exact ⟨hfaulted, fun n hn => (hcarried n hn).mono (hmono hfaulted)⟩
  · intro hfaulted
    have hsound := h.sound hfaulted
    refine { hsound with
        links := ?_
        sent := fun r hr b hb => (hsound.sent r hr b hb).imp_right (hmono hfaulted b) }
    intro w' k old' start' span' hmem
    rcases mem_append.mp hmem with hmem | hmem
    · exact hsound.links w' k old' start' span' (mem_cons_of_mem _ hmem)
    · cases mem_singleton.mp hmem

end Done

section Complete

variable {l : Nat} {ok : Bool}

theorem LogInv.failed_of_complete (h : LogInv D durable [.flushComplete l ok] tl) :
    ok = !tl.failed := by
  cases h.shape with
  | writing _ _ _ hstorage =>
    have hfalse := hstorage _ (mem_singleton_self _)
    cases hfalse
  | ending => rfl

theorem LogInv.stored_of_complete (h : LogInv D durable [.flushComplete l true] tl) {x : Completion}
    (hx : x ∈ tl.flushCompletions) (hn : D x n) :
    ∃ r ∈ tl.records, n ∈ r.writes ∧ ∀ b ∈ r.bytes, Stored durable b := by
  have hflushing : tl.flushing = true := h.shape.flushing_iff.mpr (by simp)
  have hfailed : tl.failed = false := by
    simpa using h.failed_of_complete
  rcases h.tokens x hx hflushing with hfail | ⟨-, hcarried⟩
  · simp [hfailed] at hfail
  · obtain ⟨r, hr, hmem, hb⟩ := hcarried n hn
    exact ⟨r, hr, hmem, fun b h => (hb b h).stored (by simp [Task.isStorage])⟩

/-- The log when `log_flush_complete` has called the completions. -/
def completedLog (tl : Log) : Log :=
  { tl with dirty := tl.restaged, flushCompletions := [], flushing := false }

theorem LogInv.sound_completed (h : LogInv D durable [.flushComplete l ok] tl)
    (hfaulted : tl.faulted = false) : Sound durable [] (completedLog tl) := by
  have hflushing : tl.flushing = true := h.shape.flushing_iff.mpr (by simp)
  have hsound := h.sound hfaulted
  refine ⟨hsound.lengths, hsound.lengths_pos, hsound.current, by simp, ?_, ?_, ?_⟩
  · exact fun hne => hsound.restaged hne hflushing
  · intro _ hfalse
    cases hfalse
  · intro r hr b hb
    refine (hsound.sent r hr b hb).imp_right fun hsent => .inl ?_
    exact hsent.stored (by simp [Task.isStorage])

theorem LogInv.completed (h : LogInv D durable [.flushComplete l ok] tl)
    (hnext : tl.nextCompletions = [] ∨ tl.state = .compacting) :
    LogInv D durable [] (completedLog tl) := by
  refine ⟨.idle rfl, fun hfalse => ?_, ?_, fun hne => (hne rfl).elim, by simp [completedLog],
    h.sound_completed⟩
  · cases hfalse
  · intro hne
    obtain ⟨hrestaged, hfaulted, -⟩ := h.next hne
    exact ⟨hrestaged, hfaulted, .inr (hnext.resolve_left hne)⟩

def restartedLog (tl : Log) : Log :=
  { completedLog tl with flushCompletions := tl.nextCompletions, nextCompletions := [] }

theorem LogInv.restarted {version : Version} {space : List Nat} {st : Staging Byte} {ok' : Bool}
    (h : LogInv D durable [.flushComplete l ok] tl) (hnext : tl.nextCompletions ≠ [])
    (hwanted : ∀ x ∈ tl.nextCompletions, ∀ n, D x n → ∃ r ∈ tl.records, n ∈ r.writes)
    (hst : Staging.logWriteInternal version tl.encodingLengths
      ⟨tl.current, tl.tupleStaging, space, []⟩ = (st, ok')) :
    LogInv D durable (Sys.flushTasks l st) (Sys.flushedLog (restartedLog tl) st ok') := by
  obtain ⟨hrestaged, hfaulted, -⟩ := h.next hnext
  refine LogInv.start l hrestaged rfl ?_ ?_ hst
  · exact fun _ => { h.sound_completed hfaulted with }
  · exact fun x hx => ⟨hfaulted, hwanted x hx⟩

end Complete

end

end Jerboa.Tfs.Tlog
