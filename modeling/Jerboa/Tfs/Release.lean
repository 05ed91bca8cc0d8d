import Jerboa.Tfs.Storage
import Jerboa.Tfs.Tlog.Completions

/-!
# Releasing storage

Storage that a truncation, the destruction of an extent or the end of a log
gives up may still be in the log on the device.  It stays allocated until a
release cycle has flushed the log and then the device.

The volume is its log, its storage and the extents of its files, of which only
the allocated ranges matter here.  `filesystem_write_eav` can give up the file
system lock when it starts a flush: an operation whose log write is under way is
kept with what it does when the write returns.  Device flushes in flight and the
handlers of the cycle can come in any order.  Heap allocations succeed.
-/

namespace Jerboa.Tfs.Release

open Lib Lib.Run

/-- What an update in the log says about the storage of an extent. -/
inductive Update where
  | set (id : Nat) (r : Range)
  | drop (id : Nat)
  | other
deriving DecidableEq, Repr

/-- An operation on the storage of an extent, up to its log write. -/
inductive Op where
  /-- `add_extent_to_file`.  When it fails, `fill_gap` destroys the extent and
  `filesystem_alloc` loses it. -/
  | add (id : Nat) (r : Range) (lost : Bool)
  | grow (id : Nat) (old new : Range)
  | remove (id : Nat) (r : Range)
  | trim (id : Nat) (old : Range) (keep : Nat)
deriving DecidableEq, Repr

def Op.id : Op → Nat
  | .add id .. | .grow id .. | .remove id .. | .trim id .. => id

def Op.update : Op → Update
  | .add id r _ => .set id r
  | .grow id old new => .set id ⟨old.start, new.stop⟩
  | .remove id _ => .drop id
  | .trim id old keep => .set id (.ofLength old.start keep)

/-- A device flush: how many ranges had been released when it was issued, and the updates
that were then on storage. -/
structure Flush where
  release : Bool
  releases : Nat
  written : List Nat

structure Volume where
  log : Tlog.Sys
  storage : Storage
  extents : List (Nat × Range)
  /-- Allocated for the log, or for extents that are in no file yet. -/
  held : List Range
  /-- `releases` of `tfs_shrink`, and extents on their way to
  `destroy_extent`. -/
  removed : List Range
  ops : List (Nat × Op)
  nextId : Nat
  /-- `deferred_frees` and `releasing_frees`, by the number of the release. -/
  deferred : List (Nat × Range)
  releasing : List (Nat × Range)
  waiters : Nat
  active : Bool
  scheduled : Bool
  timer : Bool
  cycle : Option Nat
  /-- The device flushes in flight. -/
  flushes : List Flush
  /-- The extents in the log when the volume was mounted, and what the updates
  since then say. -/
  base : List (Nat × Range)
  updates : List Update
  /-- The ranges given to `filesystem_release_storage`, each with the number of
  updates staged before. -/
  releases : List (Range × Nat)
  freed : List Nat
  /-- The device flushes that succeeded. -/
  stable : List Flush

namespace Volume

def releaseSchedule (s : Volume) : Volume :=
  if s.scheduled || s.active then s else { s with scheduled := true }

def releaseDefer (s : Volume) : Volume :=
  if s.timer || s.scheduled || s.active then s else { s with timer := true }

def releaseStorage (s : Volume) (r : Range) : Volume :=
  if r.span = 0 then s
  else releaseDefer { s with
    deferred := s.deferred ++ [(s.releases.length, r)]
    releases := s.releases ++ [(r, s.log.writes)] }

/-- The updates that are on storage, in the log in use. -/
def written (s : Volume) : List Nat :=
  (List.range s.log.writes).filter fun n => Tlog.WrittenIn s.log s.log.tl n

def deviceFlush (s : Volume) (release : Bool) : Volume :=
  { s with flushes := s.flushes ++ [⟨release, s.releases.length, s.written⟩] }

/-- The ranges of the cycle are freed, or go back to wait for another one. -/
def settleFrees (s : Volume) (ok : Bool) : Volume :=
  if ok then
    { s with
      storage := s.releasing.foldl (fun st p => st.free p.2) s.storage
      freed := s.freed ++ s.releasing.map Prod.fst
      releasing := []
      active := false }
  else { s with deferred := s.deferred ++ s.releasing, releasing := [], active := false }

def releaseFlushed (s : Volume) (ok : Bool) : Volume :=
  let s := s.settleFrees ok
  let s := if ok && !s.deferred.isEmpty then
      if 0 < s.waiters then s.releaseSchedule else s.releaseDefer
    else s
  { s with waiters := 0 }

def releaseLogged (s : Volume) (ok : Bool) : Volume :=
  if ok then s.deviceFlush true else s.releaseFlushed false

def finish (s : Volume) (ok : Bool) : Op → Volume
  | .add id r lost =>
    if ok then { s with extents := s.extents ++ [(id, r)] }
    else if lost then s else s.releaseStorage r
  | .grow id old new =>
    if ok then { s with
      extents := s.extents.map fun e => if e.1 = id then (id, ⟨old.start, new.stop⟩) else e }
    else { s with storage := s.storage.free new }
  | .remove id r =>
    if ok then { s with
      extents := s.extents.filter (·.1 ≠ id)
      removed := s.removed ++ [r] }
    else s
  | .trim id old keep =>
    if ok then { s with
      extents := s.extents.map fun e => if e.1 = id then (id, .ofLength old.start keep) else e
      removed := s.removed ++ [⟨old.start + keep, old.stop⟩] }
    else s

/-- The log write of the update has returned. -/
def returned (log : Tlog.Sys) (n : Nat) : Bool := n ∈ log.applied || n ∈ log.failedWrites

def settle (s : Volume) : Volume :=
  (s.ops.filter fun p => returned s.log p.1).foldl (fun s p => s.finish (p.1 ∈ s.log.applied) p.2)
    { s with ops := s.ops.filter fun p => !returned s.log p.1 }

def advance (s : Volume) (a : Tlog.Sys.Action) (u : Update) : Volume :=
  let log := s.log.step a
  settle { s with
    log := log
    updates := if log.writes = s.log.writes then s.updates else s.updates ++ [u] }

/-- An operation calls `filesystem_write_eav`, which stages the update or
returns ENOSPC. -/
def perform (s : Volume) (op : Op) (e e' : Tlog.Encoding) (space : List Nat) : Volume :=
  let log := s.log.step (.write e e' space)
  if log.writes = s.log.writes then ({ s with log := log } : Volume).finish false op
  else settle { s with
    log := log
    updates := s.updates ++ [op.update]
    ops := s.ops ++ [(s.log.writes, op)] }

/-! ## Steps -/

inductive Action where
  /-- The log moves on for another reason, among them updates that say nothing
  about storage. -/
  | log (a : Tlog.Sys.Action)
  | allocate (n : Nat)
  | discard (i : Nat)
  | add (i : Nat) (lost : Bool) (e e' : Tlog.Encoding) (space : List Nat)
  | grow (id n : Nat) (e e' : Tlog.Encoding) (space : List Nat)
  | remove (id : Nat) (e e' : Tlog.Encoding) (space : List Nat)
  | trim (id keep : Nat) (e e' : Tlog.Encoding) (space : List Nat)
  | release (i : Nat)
  | wait
  | timer
  | start (space : List Nat)
  | logged
  | sync
  | flushed (i : Nat) (ok : Bool)

def releaseStart (s : Volume) (space : List Nat) : Volume :=
  if s.active then s
  else if s.deferred.isEmpty then { s with waiters := 0 }
  else advance { s with
      releasing := s.deferred
      deferred := s.releasing
      active := true
      cycle := some s.log.calls.length } (.flush space) .other

def step (s : Volume) : Action → Volume
  | .log a => s.advance a .other
  | .allocate n =>
    match s.storage.allocate n with
    | some (start, st) => { s with storage := st, held := s.held ++ [.ofLength start n] }
    | none => s
  | .discard i =>
    match s.held[i]? with
    | some r => ({ s with held := s.held.eraseIdx i } : Volume).releaseStorage r
    | none => s
  | .add i lost e e' space =>
    match s.held[i]? with
    | some r =>
      ({ s with held := s.held.eraseIdx i, nextId := s.nextId + 1 } : Volume).perform
        (.add s.nextId r lost) e e' space
    | none => s
  | .grow id n e e' space =>
    match s.extents.find? (·.1 = id) with
    | some (_, r) =>
      match s.storage.reserve (.ofLength r.stop n) with
      | some st =>
        ({ s with storage := st } : Volume).perform (.grow id r (.ofLength r.stop n)) e e' space
      | none => s
    | none => s
  | .remove id e e' space =>
    match s.extents.find? (·.1 = id) with
    | some (_, r) => s.perform (.remove id r) e e' space
    | none => s
  | .trim id keep e e' space =>
    match s.extents.find? (·.1 = id) with
    | some (_, r) => if keep ≤ r.span then s.perform (.trim id r keep) e e' space else s
    | none => s
  | .release i =>
    match s.removed[i]? with
    | some r => ({ s with removed := s.removed.eraseIdx i } : Volume).releaseStorage r
    | none => s
  | .wait => releaseSchedule { s with waiters := s.waiters + 1 }
  | .timer =>
    if s.timer then
      let s := { s with timer := false }
      if s.deferred.isEmpty then s else s.releaseSchedule
    else s
  | .start space =>
    if s.scheduled then ({ s with scheduled := false } : Volume).releaseStart space else s
  | .logged =>
    match s.cycle with
    | some c =>
      match s.log.invoked.find? (·.1 = c) with
      | some (_, ok) => ({ s with cycle := none } : Volume).releaseLogged ok
      | none => s
    | none => s
  | .sync => s.deviceFlush false
  | .flushed i ok =>
    match s.flushes[i]? with
    | some f =>
      let s := { s with
        flushes := s.flushes.eraseIdx i
        stable := if ok then f :: s.stable else s.stable }
      if f.release then s.releaseFlushed ok else s
    | none => s

end Volume

def Update.apply (l : List (Nat × Range)) : Update → List (Nat × Range)
  | .set id r => (id, r) :: l.filter (·.1 ≠ id)
  | .drop id => l.filter (·.1 ≠ id)
  | .other => l

/-- The extents in a log from which the first `k` updates since the volume was
mounted can be read. -/
def Volume.replay (s : Volume) (k : Nat) : List (Nat × Range) :=
  (s.updates.take k).foldl Update.apply s.base

/-- What a volume has when it is mounted: extents and other allocated storage. -/
structure Mounted where
  storage : Storage
  extents : List (Nat × Range)
  held : List Range
  nextId : Nat
  distinct : (extents.map Prod.fst).Nodup
  bound : ∀ x ∈ extents, x.1 < nextId
  ordered : ∀ x ∈ extents, x.2.start ≤ x.2.stop
  heldOrdered : ∀ r ∈ held, r.start ≤ r.stop
  owned : storage.Owned (extents.map Prod.snd ++ held)

def Mounted.volume (d : Mounted) (log : Tlog.Sys) : Volume where
  log := log
  storage := d.storage
  extents := d.extents
  held := d.held
  removed := []
  ops := []
  nextId := d.nextId
  deferred := []
  releasing := []
  waiters := 0
  active := false
  scheduled := false
  timer := false
  cycle := none
  flushes := []
  base := d.extents
  updates := []
  releases := []
  freed := []
  stable := []

end Jerboa.Tfs.Release
