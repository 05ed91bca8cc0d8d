import Jerboa.Lib.Table
import Jerboa.Vm.Types

/-!
# The stores of VMs

`FileStore` and `SQLiteStore`, each a registry in memory in front of records
that outlive the daemon, and the migration from the one to the other.  Every
method holds the store's mutex while it writes, so each is one function of the
store.  Its first result says whether the call succeeded; whether the disk or
the database does what it is asked to is an argument (`ok`).
-/

namespace Jerboa.Vm

open Lib.Table Net.Address

variable {Public : Type}

/-- The registry in memory, `MemoryStore`. -/
abbrev Vms (Public : Type) := AList fun _ : Text => VM Public

/-- The file store's root: its directories, in the order `os.ReadDir` lists
them, each with its `state.json` if that can be read and parsed. -/
abbrev Dir (Public : Type) := AList fun _ : Text => Option (VmState Public)

/-- The records below the root.  A directory without a record is skipped. -/
def records (dir : Dir Public) : List (VmState Public) := dir.entries.filterMap Sigma.snd

def newVM (id : Text) (cfg : Config Public) (now : Time) : VM Public where
  id := id
  cfg := cfg
  state := .known .created
  createdAt := now
  startedAt := none
  stoppedAt := none
  daemonRecovered := false
  healthStatus := []
  restartCount := 0
  pid := 0
  proc := none
  doneClosed := false

/-- Both stores register all restored VMs before they write back those whose
state has changed. -/
def changed (restored : List (VM Public × Bool)) : List (VM Public) :=
  (restored.filter Prod.snd).map Prod.fst

structure FileStore (Public : Type) where
  vms : Vms Public
  dir : Dir Public

namespace FileStore

/-- `writeState`.  A VM that is no longer registered is not written. -/
def writeState (s : FileStore Public) (v : VM Public) (ok : Bool) :
    Bool × FileStore Public :=
  if v.id ∈ s.vms then
    if ok then (true, { s with dir := s.dir.insert v.id (some v.toState) })
    else (false, s)
  else (true, s)

def restoreState (probe : Probe) (now : Time) (st : VmState Public) : VM Public × Bool :=
  let v : VM Public :=
    { id := st.id
      cfg := .ofPublic st.config
      state := st.state
      createdAt := st.createdAt
      startedAt := st.startedAt
      stoppedAt := st.stoppedAt
      daemonRecovered := false
      healthStatus := st.healthStatus
      restartCount := st.restartCount
      pid := 0
      proc := none
      doneClosed := false }
  recovered probe now v st.pid

def restore (probe : Probe) (clock : Text → Time) (s : FileStore Public) (ok : Text → Bool) :
    FileStore Public :=
  let restored := (records s.dir).map fun st => restoreState probe (clock st.id) st
  let s := { s with vms := insertAll VM.id s.vms (restored.map Prod.fst) }
  (changed restored).foldl (fun s v => (s.writeState v (ok v.id)).2) s

end FileStore

/-! ## The database -/

/-- A row of the table `vms`, without the id, which is its primary key.  The
two columns that can be null have a second `Option` for that. -/
structure Row (Public : Type) where
  config : Option Public
  state : StateText
  createdAt : Option Time
  startedAt : Option (Option Time)
  stoppedAt : Option (Option Time)
  daemonRecovered : Int
  healthStatus : Text
  restartCount : Int
  pid : Int
deriving DecidableEq

/-- The values `writeVM` binds. -/
def Row.ofState (st : VmState Public) : Row Public where
  config := some st.config
  state := st.state
  createdAt := some st.createdAt
  startedAt := st.startedAt.map some
  stoppedAt := st.stoppedAt.map some
  daemonRecovered := if st.daemonRecovered then 1 else 0
  healthStatus := st.healthStatus
  restartCount := st.restartCount
  pid := st.pid

abbrev Rows (Public : Type) := AList fun _ : Text => Row Public

def upsert (table : Rows Public) (id : Text) (row : Row Public) : Rows Public :=
  match table.lookup id with
  | none => table.insert id row
  | some old => table.insert id { row with createdAt := old.createdAt }

structure SQLiteStore (Public : Type) where
  vms : Vms Public
  table : Rows Public

namespace SQLiteStore

/-- `NewSQLiteStore` on a database: nothing is registered yet. -/
def opened (table : Rows Public) : SQLiteStore Public := ⟨∅, table⟩

/-- `writeVM`.  A VM that is no longer registered is not written. -/
def writeVM (s : SQLiteStore Public) (v : VM Public) (ok : Bool) :
    Bool × SQLiteStore Public :=
  if v.id ∈ s.vms then
    if ok then (true, { s with table := upsert s.table v.id (.ofState v.toState) })
    else (false, s)
  else (true, s)

def create (s : SQLiteStore Public) (id : Text) (cfg : Config Public) (now : Time) (ok : Bool) :
    Bool × SQLiteStore Public :=
  let v := newVM id cfg now
  let s := { s with vms := s.vms.insert id v }
  match s.writeVM v ok with
  | (true, s) => (true, s)
  | (false, s) => (false, { s with vms := s.vms.erase id })

/-- `Remove`.  Where the database refuses the deletion the VM is gone from the
registry only, and the call fails. -/
def remove (s : SQLiteStore Public) (id : Text) (ok : Bool) : Bool × SQLiteStore Public :=
  if id ∈ s.vms then
    if ok then (true, ⟨s.vms.erase id, s.table.erase id⟩)
    else (false, { s with vms := s.vms.erase id })
  else (false, s)

/-- One row of `Restore`; a row whose configuration or creation time does not
parse is skipped. -/
def restoreRow (probe : Probe) (now : Time) (id : Text) (row : Row Public) :
    Option (VM Public × Bool) := do
  let cfg ← row.config
  let createdAt ← row.createdAt
  let v : VM Public :=
    { id := id
      cfg := .ofPublic cfg
      state := row.state
      createdAt := createdAt
      startedAt := row.startedAt.join
      stoppedAt := row.stoppedAt.join
      daemonRecovered := false
      healthStatus := row.healthStatus
      restartCount := row.restartCount
      pid := 0
      proc := none
      doneClosed := false }
  return recovered probe now v row.pid

def restoredRows (probe : Probe) (clock : Text → Time) (table : Rows Public) :
    List (VM Public × Bool) :=
  table.entries.filterMap fun e => restoreRow probe (clock e.1) e.1 e.2

def restore (probe : Probe) (clock : Text → Time) (s : SQLiteStore Public) (ok : Text → Bool) :
    SQLiteStore Public :=
  let restored := restoredRows probe clock s.table
  let s := { s with vms := insertAll VM.id s.vms (restored.map Prod.fst) }
  (changed restored).foldl (fun s v => (s.writeVM v (ok v.id)).2) s

end SQLiteStore

/-- The VM `Migrate` makes of a record. -/
def migratedVM (now : Time) (st : VmState Public) : VM Public :=
  let v : VM Public :=
    { id := st.id
      cfg := .ofPublic st.config
      state := st.state
      createdAt := st.createdAt
      startedAt := st.startedAt
      stoppedAt := st.stoppedAt
      daemonRecovered := false
      healthStatus := []
      restartCount := st.restartCount
      pid := 0
      proc := none
      doneClosed := false }
  let v :=
    if st.state = .known .running ∨ st.state = .known .starting then
      { v with
        state := .known .stopped
        stoppedAt := some now
        daemonRecovered := true
        doneClosed := true }
    else if st.state = .known .stopped then { v with doneClosed := true }
    else v
  if st.daemonRecovered then { v with daemonRecovered := true } else v

/-- One turn of `Migrate`: the store, and the VMs counted so far. -/
def migrateRecord (clock : Text → Time) (ok : Text → Bool)
    (acc : SQLiteStore Public × List (VM Public)) (st : VmState Public) :
    SQLiteStore Public × List (VM Public) :=
  if st.id ∈ acc.1.vms then acc
  else
    let v := migratedVM (clock st.id) st
    match acc.1.writeVM v (ok st.id) with
    | (false, s) => (s, acc.2)
    | (true, s) => ({ s with vms := s.vms.insert v.id v }, acc.2 ++ [v])

/-- `Migrate`.  The count it returns is the number of VMs in the list. -/
def migrate (clock : Text → Time) (ok : Text → Bool) (dir : Dir Public) (s : SQLiteStore Public) :
    SQLiteStore Public × List (VM Public) :=
  (records dir).foldl (migrateRecord clock ok) (s, [])

end Jerboa.Vm
