import Jerboa.Lib.Run
import Jerboa.Tfs.Tlog.Extension

/-!
# Flushing the log

The log of a mounted volume as a state machine.  Records are staged in memory
by `log_write`; `log_flush` cuts them into frames, issues the storage writes and
calls its completion when all of them are done.  A log with many obsolete
entries is compacted: a second log is built from the directory tree in memory
and takes its place when it is linked.

The file system lock makes each handler atomic, except that `log_flush` gives
the lock up while it issues its writes.  A thread that is there is kept with
what it has left to do.  Storage requests in flight and handlers that were
scheduled are kept as tasks, and any of them can be next.  Heap allocations
succeed, and memory is not reused: a log that was destroyed stays where it is,
only its timer never fires.
-/

namespace Jerboa.Tfs.Tlog

/-! ## The state -/

structure Byte where
  record : Nat
  offset : Nat
deriving DecidableEq, Repr

/-- What `encode_tuple` and `encode_eav` make of a record: its length, and how
they change the counts of entries. -/
structure Encoding where
  length : Nat
  entries : Nat
  obsolete : Nat
  length_pos : 0 < length

/-- A record of a log.  `writes` are the updates of the file system that can be
read from it: one for an update, all of them for the tree that a compaction
begins with. -/
structure Record where
  id : Nat
  length : Nat
  writes : List Nat
deriving Repr

def Record.bytes (r : Record) : List Byte := (List.range r.length).map fun i => ⟨r.id, i⟩

inductive LogState where
  | init
  | linked
  | compacting
  | failed
deriving DecidableEq, Repr

inductive Completion where
  | caller (c : Nat)
  /-- `log_extend_link` for the first extension of the log `new`, then
  `log_switch_complete`. -/
  | rebuild (old new : Nat) (first : Ext Byte) (start span : Nat)
deriving Repr

/-- `struct log`.  `records` is everything staged so far, `count` and `failed`
are the merge of the flush in flight, and `faulted` says that a storage write or
an extension failed at some time. -/
structure Log where
  records : List Record
  tupleStaging : List Byte
  encodingLengths : List Nat
  totalEntries : Nat
  obsoleteEntries : Nat
  current : Ext Byte
  extensions : List (Nat × Nat)
  flushCompletions : List Completion
  nextCompletions : List Completion
  dirty : Bool
  flushing : Bool
  restaged : Bool
  timer : Bool
  state : LogState
  count : Nat
  failed : Bool
  faulted : Bool
  destroyed : Bool

inductive Handler where
  | join (l : Nat)
  | link (l : Nat) (old : Ext Byte) (start span : Nat)
  | switch (old new : Nat)
deriving Repr

inductive Task where
  | storage (w : Write Byte) (handler : Handler)
  | flushComplete (l : Nat) (ok : Bool)
  | rebuildComplete (old new : Nat) (first : Ext Byte) (start span : Nat) (ok : Bool)
deriving Repr

inductive Cont where
  | done
  /-- `filesystem_write_eav`: the record is staged in `fs->tl`, which was `l`. -/
  | logged (l n : Nat) (e : Encoding)
  | loggedTwice (l n : Nat)
  /-- The loop of `log_switch_complete` over the waiters of `old`: the next
  index, and how many rounds are left. -/
  | switching (old used i left : Nat)

/-- A thread in `log_flush` of a log that waits for the lock. -/
structure Thread where
  log : Nat
  cont : Cont

structure Sys where
  version : Version
  logs : Nat → Log
  tl : Nat
  temp : Option Nat
  nlogs : Nat
  nrecords : Nat
  tasks : List Task
  threads : List Thread
  writes : Nat
  applied : List Nat
  /-- Updates whose caller was told ENOSPC although the log has them. -/
  failedWrites : List Nat
  /-- For each completion given to `log_flush`, the number of updates staged
  before. -/
  calls : List Nat
  invoked : List (Nat × Bool)
  durable : List (Write Byte)
  released : List (Nat × Nat)

/-! ## Flushes -/

def callers (cs : List Completion) : List Nat :=
  cs.filterMap fun
    | .caller c => some c
    | .rebuild .. => none

def rebuilds (ok : Bool) (cs : List Completion) : List Task :=
  cs.filterMap fun
    | .caller _ => none
    | .rebuild old new first start span => some (.rebuildComplete old new first start span ok)

namespace Sys

def setLog (s : Sys) (l : Nat) (tl : Log) : Sys := { s with logs := Function.update s.logs l tl }

def park (s : Sys) (l : Nat) (k : Cont) : Sys := { s with threads := s.threads ++ [⟨l, k⟩] }

/-- The caller of `log_flush` waits for the lock if `log_flush` gave it up. -/
def parkIf (r : Sys × Bool) (l : Nat) (k : Cont) : Sys := if r.2 then r.1.park l k else r.1

def invoke (s : Sys) (cs : List Completion) (ok : Bool) : Sys :=
  { s with
    invoked := s.invoked ++ (callers cs).map (·, ok)
    tasks := s.tasks ++ rebuilds ok cs }

def runFlushCompletions (s : Sys) (l : Nat) (ok : Bool) : Sys :=
  (s.setLog l { s.logs l with flushCompletions := [] }).invoke (s.logs l).flushCompletions ok

/-- What `log_write_internal` does to the log `tl`: the staging when it
returns, and whether all tuples were written. -/
def frames (s : Sys) (tl : Log) (space : List Nat) : Staging Byte × Bool :=
  Staging.logWriteInternal s.version tl.encodingLengths ⟨tl.current, tl.tupleStaging, space, []⟩

def flushedLog (tl : Log) (st : Staging Byte) (ok : Bool) : Log :=
  { tl with
    timer := false
    flushing := true
    restaged := false
    tupleStaging := st.tuples
    encodingLengths := if ok then [] else tl.encodingLengths
    current := st.ext.advance
    extensions := tl.extensions ++ st.links.map fun k => (k.start, k.span)
    state := if ok then tl.state else .failed
    count := st.links.length + 1
    failed := !ok
    faulted := tl.faulted || !ok }

/-- The storage requests of a flush: the headers of the new extensions, and the
current extension. -/
def flushTasks (l : Nat) (st : Staging Byte) : List Task :=
  (st.links.map fun k => .storage k.header (.link l k.old k.start k.span)) ++
    [.storage st.ext.flush (.join l)]

/-- The part of `log_flush` that starts a flush.  `space` are the offsets that
`filesystem_reserve_log_space` finds. -/
def startFlush (s : Sys) (l : Nat) (space : List Nat) : Sys :=
  let r := s.frames (s.logs l) space
  { s.setLog l (flushedLog (s.logs l) r.1 r.2) with tasks := s.tasks ++ flushTasks l r.1 }

def addFlush (tl : Log) (cs : List Completion) : Log :=
  { tl with flushCompletions := tl.flushCompletions ++ cs }

def pushCompletion (tl : Log) (c : Option Completion) : Log :=
  if tl.restaged then { tl with nextCompletions := tl.nextCompletions ++ c.toList }
  else addFlush tl c.toList

/-- `log_flush` up to the point where it gives up the lock.  The flag says that
it does; then the compaction check is still to come. -/
def logFlush (s : Sys) (l : Nat) (c : Option Completion) (space : List Nat) : Sys × Bool :=
  let tl := s.logs l
  if !tl.dirty && tl.state ≠ .compacting then (s.invoke c.toList true, false)
  else if tl.flushing || tl.state = .compacting then (s.setLog l (pushCompletion tl c), false)
  else ((s.setLog l (addFlush tl c.toList)).startFlush l space, true)

def takeNext (tl : Log) : Log :=
  { addFlush tl tl.nextCompletions with nextCompletions := [] }

def logFlushRestaged (s : Sys) (l : Nat) (space : List Nat) : Sys × Bool :=
  let tl := s.logs l
  if !tl.restaged || tl.flushing || tl.state = .compacting then (s, false)
  else if tl.nextCompletions.length ≠ 0 then (s.setLog l (takeNext tl)).logFlush l none space
  else (s.setLog l { tl with timer := true }, false)

def logFlushComplete (s : Sys) (l : Nat) (ok : Bool) (space : List Nat) : Sys :=
  let s := s.setLog l { s.logs l with dirty := (s.logs l).restaged }
  let s := s.runFlushCompletions l ok
  let s := s.setLog l { s.logs l with flushing := false }
  parkIf (s.logFlushRestaged l space) l .done

def maxTupleStagingBytes : Nat := 32 * 1024 * 1024

def accepts (tl : Log) : Bool :=
  tl.state ≠ .failed && tl.tupleStaging.length < maxTupleStagingBytes

def stage (s : Sys) (l : Nat) (writes : List Nat) (e : Encoding) : Sys :=
  let r : Record := ⟨s.nrecords, e.length, writes⟩
  let tl := s.logs l
  { s.setLog l { tl with
      records := tl.records ++ [r]
      tupleStaging := tl.tupleStaging ++ r.bytes
      encodingLengths := tl.encodingLengths ++ [e.length]
      totalEntries := tl.totalEntries + e.entries
      obsoleteEntries := tl.obsoleteEntries + e.obsolete } with
    nrecords := s.nrecords + 1 }

def markRestaged (tl : Log) : Log :=
  if tl.flushing || tl.state = .compacting then { tl with restaged := true } else tl

def logSetDirty (s : Sys) (l : Nat) (space : List Nat) : Sys × Bool :=
  let tl := markRestaged (s.logs l)
  if tl.dirty then
    if tl.current.size / 2 ≤ tl.tupleStaging.length then (s.setLog l tl).logFlush l none space
    else (s.setLog l tl, false)
  else (s.setLog l { tl with dirty := true, timer := true }, false)

/-- `filesystem_write_eav` returns.  Its callers change the tree in memory
when it succeeds. -/
def finishWrite (s : Sys) (n : Nat) (ok : Bool) : Sys :=
  if ok then { s with applied := n :: s.applied }
  else { s with failedWrites := n :: s.failedWrites }

/-- `filesystem_write_eav` after the record was staged in `fs->tl`. -/
def writeTemp (s : Sys) (l n : Nat) (e : Encoding) (space : List Nat) : Sys :=
  if (s.logs l).state = .failed then s.finishWrite n false
  else match s.temp with
    | none => s.finishWrite n true
    | some t =>
      if accepts (s.logs t) then
        let r := (s.stage t [n] e).logSetDirty t space
        if r.2 then r.1.park t (.loggedTwice t n)
        else r.1.finishWrite n ((r.1.logs t).state ≠ .failed)
      else s.finishWrite n false

/-- `filesystem_write_eav`: the record has the encoding `e` in `fs->tl` and `e'`
in `fs->temp_log`. -/
def write (s : Sys) (e e' : Encoding) (space : List Nat) : Sys :=
  let l := s.tl
  if accepts (s.logs l) then
    let n := s.writes
    let r := (({ s with writes := n + 1 } : Sys).stage l [n] e).logSetDirty l space
    if r.2 then r.1.park l (.logged l n e') else r.1.writeTemp l n e' space
  else s

def compactionDue (tl : Log) : Bool :=
  tl.state = .linked && 8192 ≤ tl.obsoleteEntries && tl.totalEntries ≤ 2 * tl.obsoleteEntries

/-- `log_new` for a compaction, with the extension from `log_ext_new`. -/
def newLog (version : Version) (start : Nat) : Log where
  records := []
  tupleStaging := []
  encodingLengths := []
  totalEntries := 0
  obsoleteEntries := 0
  current := .init version start (defaultExtensionSize / sectorSize) []
  extensions := [(start, defaultExtensionSize / sectorSize)]
  flushCompletions := []
  nextCompletions := []
  dirty := false
  flushing := false
  restaged := false
  timer := false
  state := .init
  count := 0
  failed := false
  faulted := false
  destroyed := false

def firstExt (version : Version) (volume : List UInt8) : Ext Byte :=
  .init version 0 (initialSize / sectorSize) volume

/-- The end of `log_flush` when a compaction of `l` is due: `filesystem_log_rebuild`
stages the tree in memory, encoded as `image`, in a new log and flushes it. -/
def compact (s : Sys) (l start : Nat) (image : Encoding) (volume : List UInt8)
    (space : List Nat) : Sys × Bool :=
  let new := s.nlogs
  let s := s.setLog l { s.logs l with state := .compacting }
  let s := { s.setLog new (newLog s.version start) with nlogs := new + 1 }
  let s := s.stage new s.applied image
  let s := { (s.logSetDirty new []).1 with temp := some new }
  s.logFlush new (some (.rebuild l new (firstExt s.version volume) start
    (defaultExtensionSize / sectorSize))) space

/-- The loop at the end of `log_switch_complete`: the waiters of `old` from `i`
on are handed over to `used`.  The number of rounds was fixed at the start. -/
def switchLoop (s : Sys) (old used : Nat) (space : List Nat) (i : Nat) : Nat → Sys
  | 0 =>
    let s := s.setLog old { s.logs old with nextCompletions := [] }
    if used = old then parkIf (s.logFlushRestaged old space) old .done else s
  | left + 1 =>
    let r := s.logFlush used (s.logs old).nextCompletions[i]? space
    if r.2 then r.1.park used (.switching old used (i + 1) left)
    else switchLoop r.1 old used space (i + 1) left

/-- `log_switch_complete` up to its loop: one of the logs is linked, the other
one is destroyed, and those who wait for a flush of the old log are called. -/
def switched (s : Sys) (old new : Nat) (ok : Bool) : Sys :=
  let used := if ok then new else old
  let dead := if ok then old else new
  let s := s.setLog used { s.logs used with state := .linked }
  let s := s.setLog dead { s.logs dead with destroyed := true }
  let s := { s with
    tl := used
    temp := none
    released := s.released ++ (s.logs dead).extensions }
  s.runFlushCompletions old ok

def logSwitchComplete (s : Sys) (old new : Nat) (ok : Bool) (space : List Nat) : Sys :=
  (s.switched old new ok).switchLoop old (if ok then new else old) space 0
    (s.logs old).nextCompletions.length

/-- The compaction's `log_extend_link`: the first extension is linked to the
second one and written, in place of the old log's. -/
def rebuildComplete (s : Sys) (old new : Nat) (first : Ext Byte) (start span : Nat) (ok : Bool)
    (space : List Nat) : Sys :=
  if ok then
    { s with tasks := s.tasks ++
        [.storage (first.push (.link start span)).flush (.switch old new)] }
  else s.logSwitchComplete old new false space

/-! ## Handlers -/

def joinedLog (tl : Log) (ok : Bool) : Log :=
  { tl with
    failed := tl.failed || !ok
    faulted := tl.faulted || !ok
    count := tl.count - 1 }

def joinTasks (l : Nat) (tl : Log) : List Task :=
  if tl.count = 0 then [.flushComplete l !tl.failed] else []

def mergeJoin (s : Sys) (l : Nat) (ok : Bool) : Sys :=
  let tl := joinedLog (s.logs l) ok
  { s.setLog l tl with tasks := s.tasks ++ joinTasks l tl }

def handle (s : Sys) (ok : Bool) (space : List Nat) : Handler → Sys
  | .join l => s.mergeJoin l ok
  | .link l old start span =>
    if ok then
      { s with tasks := s.tasks ++ [.storage (old.push (.link start span)).flush (.join l)] }
    else s.mergeJoin l false
  | .switch old new => s.logSwitchComplete old new ok space

def runTask (s : Sys) (ok : Bool) (space : List Nat) : Task → Sys
  | .storage w handler =>
    ({ s with durable := if ok then w :: s.durable else s.durable } : Sys).handle ok space handler
  | .flushComplete l ok => s.logFlushComplete l ok space
  | .rebuildComplete old new first start span ok =>
    s.rebuildComplete old new first start span ok space

def proceed (s : Sys) (space : List Nat) : Cont → Sys
  | .done => s
  | .logged l n e => s.writeTemp l n e space
  | .loggedTwice l n => s.finishWrite n ((s.logs l).state ≠ .failed)
  | .switching old used i left => s.switchLoop old used space i left

/-- A thread in `log_flush` gets the lock back.  `start` is the offset that
`log_ext_new` finds for a new log. -/
def resume (s : Sys) (t : Thread) (start : Option Nat) (image : Encoding) (volume : List UInt8)
    (space : List Nat) : Sys :=
  if compactionDue (s.logs t.log) then
    match start with
    | none => s.proceed space t.cont
    | some start =>
      let r := s.compact t.log start image volume space
      if r.2 then r.1.park s.nlogs t.cont else r.1.proceed space t.cont
  else s.proceed space t.cont

/-- Everything that can happen.  `space` are the offsets that
`filesystem_reserve_log_space` gives to `log_extend` on the way. -/
inductive Action where
  | write (e e' : Encoding) (space : List Nat)
  | flush (space : List Nat)
  | timer (l : Nat) (space : List Nat)
  | task (i : Nat) (ok : Bool) (space : List Nat)
  | resume (i : Nat) (start : Option Nat) (image : Encoding) (volume : List UInt8)
      (space : List Nat)

def step (s : Sys) : Action → Sys
  | .write e e' space => s.write e e' space
  | .flush space =>
    let c := s.calls.length
    parkIf (({ s with calls := s.calls ++ [s.writes] } : Sys).logFlush s.tl
      (some (.caller c)) space)
      s.tl .done
  | .timer l space =>
    if l < s.nlogs ∧ (s.logs l).timer ∧ ¬(s.logs l).destroyed then
      parkIf ((s.setLog l { s.logs l with timer := false }).logFlush l none space) l .done
    else s
  | .task i ok space =>
    match s.tasks[i]? with
    | some t => ({ s with tasks := s.tasks.eraseIdx i } : Sys).runTask ok space t
    | none => s
  | .resume i start image volume space =>
    match s.threads[i]? with
    | some t => ({ s with threads := s.threads.eraseIdx i } : Sys).resume t start image volume space
    | none => s

/-- A mounted volume: one log, linked, with nothing staged and an extension that
was read up to some point. -/
def mounted (version : Version) (start span replayed : Nat) (oldEncoding : Bool)
    (extensions : List (Nat × Nat)) (totalEntries obsoleteEntries : Nat) : Sys where
  version := version
  logs := fun _ => { newLog version start with
    current := ⟨start, span, [.replayed replayed], 0, oldEncoding⟩
    extensions := extensions
    totalEntries := totalEntries
    obsoleteEntries := obsoleteEntries
    state := .linked }
  tl := 0
  temp := none
  nlogs := 1
  nrecords := 0
  tasks := []
  threads := []
  writes := 0
  applied := []
  failedWrites := []
  calls := []
  invoked := []
  durable := []
  released := []

/-! ## Where `log_flush` can go -/

@[simp] theorem invoke_nil (s : Sys) (ok : Bool) : s.invoke [] ok = s := by
  simp [invoke, callers, rebuilds]

@[simp] theorem setLog_self (s : Sys) (l : Nat) : s.setLog l (s.logs l) = s := by
  simp [setLog]

@[simp] theorem addFlush_nil (tl : Log) : addFlush tl [] = tl := by
  simp [addFlush]

@[simp] theorem pushCompletion_none (tl : Log) : pushCompletion tl none = tl := by
  simp [pushCompletion]

theorem logFlush_cases (s : Sys) (l : Nat) (c : Option Completion) (space : List Nat) :
    ((s.logs l).dirty = false ∧ (s.logs l).state ≠ .compacting ∧
        s.logFlush l c space = (s.invoke c.toList true, false)) ∨
      (((s.logs l).flushing = true ∨ (s.logs l).state = .compacting) ∧
        s.logFlush l c space = (s.setLog l (pushCompletion (s.logs l) c), false)) ∨
      ((s.logs l).dirty = true ∧ (s.logs l).flushing = false ∧ (s.logs l).state ≠ .compacting ∧
        s.logFlush l c space =
          ((s.setLog l (addFlush (s.logs l) c.toList)).startFlush l space, true)) := by
  unfold logFlush
  dsimp only
  split_ifs with hclean hbusy
  · simp only [Bool.and_eq_true, Bool.not_eq_true', decide_eq_true_eq] at hclean
    exact .inl ⟨hclean.1, hclean.2, rfl⟩
  · simp only [Bool.or_eq_true, decide_eq_true_eq] at hbusy
    exact .inr (.inl ⟨hbusy, rfl⟩)
  · simp only [Bool.or_eq_true, decide_eq_true_eq, not_or, Bool.not_eq_true] at hbusy
    simp only [Bool.and_eq_true, Bool.not_eq_true', decide_eq_true_eq, not_and, not_not] at hclean
    refine .inr (.inr ⟨?_, hbusy.1, hbusy.2, rfl⟩)
    by_contra hdirty
    exact hbusy.2 (hclean (by simpa using hdirty))

structure SameFrame (s s' : Sys) : Prop where
  tl : s'.tl = s.tl
  temp : s'.temp = s.temp
  nlogs : s'.nlogs = s.nlogs
  threads : s'.threads = s.threads
  calls : s'.calls = s.calls
  writes : s'.writes = s.writes
  applied : s'.applied = s.applied
  failedWrites : s'.failedWrites = s.failedWrites

theorem SameFrame.refl (s : Sys) : SameFrame s s := ⟨rfl, rfl, rfl, rfl, rfl, rfl, rfl, rfl⟩

theorem sameFrame_logFlush (s : Sys) (l : Nat) (c : Option Completion) (space : List Nat) :
    SameFrame s (s.logFlush l c space).1 := by
  rcases s.logFlush_cases l c space with ⟨-, -, heq⟩ | ⟨-, heq⟩ | ⟨-, -, -, heq⟩ <;>
    rw [heq] <;> exact ⟨rfl, rfl, rfl, rfl, rfl, rfl, rfl, rfl⟩

theorem logFlush_logs_of_ne (s : Sys) {k l : Nat} (hne : k ≠ l) (c : Option Completion)
    (space : List Nat) : (s.logFlush l c space).1.logs k = s.logs k := by
  rcases s.logFlush_cases l c space with ⟨-, -, heq⟩ | ⟨-, heq⟩ | ⟨-, -, -, heq⟩ <;> rw [heq]
  · rfl
  · exact Function.update_of_ne hne _ _
  · simp [startFlush, setLog, hne]

theorem logFlush_faulted (s : Sys) {l : Nat} {c : Option Completion} {space : List Nat}
    (h : (s.logFlush l c space).2 = false) :
    ((s.logFlush l c space).1.logs l).faulted = (s.logs l).faulted := by
  rcases s.logFlush_cases l c space with ⟨-, -, heq⟩ | ⟨-, heq⟩ | ⟨-, -, -, heq⟩
  · rw [heq]
    rfl
  · rw [heq]
    simp only [setLog, Function.update_self, pushCompletion]
    split_ifs <;> rfl
  · rw [heq] at h
    cases h

theorem logFlush_records (s : Sys) (l k : Nat) (c : Option Completion) (space : List Nat) :
    ((s.logFlush l c space).1.logs k).records = (s.logs k).records := by
  by_cases hk : k = l
  · subst hk
    rcases s.logFlush_cases k c space with ⟨-, -, heq⟩ | ⟨-, heq⟩ | ⟨-, -, -, heq⟩ <;> rw [heq]
    · rfl
    · simp only [setLog, Function.update_self, pushCompletion]
      split_ifs <;> rfl
    · simp [startFlush, setLog, flushedLog, addFlush]
  · rw [s.logFlush_logs_of_ne hk]

theorem logFlush_state (s : Sys) {l : Nat} {c : Option Completion} {space : List Nat}
    (h : (s.logFlush l c space).2 = true) : (s.logs l).state ≠ .compacting := by
  rcases s.logFlush_cases l c space with ⟨-, hstate, -⟩ | ⟨-, heq⟩ | ⟨-, -, hstate, -⟩
  · exact hstate
  · rw [heq] at h
    cases h
  · exact hstate

end Sys

end Jerboa.Tfs.Tlog
