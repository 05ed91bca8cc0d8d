import Jerboa.Vm.Migrate

/-!
# Three readings of one record

`FileStore.Restore`, `SQLiteStore.Restore` and `Migrate` each make a VM of a
record by hand.  The two stores read a record alike.  `Migrate` drops the
health status, keeps the recovery mark the stores drop, never looks for a
process and leaves a VM that was stopping as it is; `ReadsAlike` is what is
left.  Writing a VM and reading it back keeps what it should, unless the table
has a row of the same id with another creation time.
-/

namespace Jerboa.Vm

open Lib.Table Net.Address SQLiteStore

variable {Public : Type} {probe : Probe} {clock : Text → Time} {ok : Text → Bool}

def StateText.launched (s : StateText) : Prop := s = .known .running ∨ s = .known .starting

/-- The records `Migrate` reads as the stores do. -/
structure ReadsAlike (probe : Probe) (st : VmState Public) : Prop where
  health : st.healthStatus = []
  stopping : st.state ≠ .known .stopping
  process : st.state.launched → ¬probe.survived st.pid st.id
  mark : st.daemonRecovered = true → st.state.launched

theorem restoreState_eq_migratedVM_iff (now : Time) (st : VmState Public) :
    (FileStore.restoreState probe now st).1 = migratedVM now st ↔ ReadsAlike probe st := by
  have hiff : ReadsAlike probe st ↔ st.healthStatus = [] ∧ st.state ≠ .known .stopping ∧
      (st.state.launched → ¬probe.survived st.pid st.id) ∧
      (st.daemonRecovered = true → st.state.launched) :=
    ⟨fun h => ⟨h.health, h.stopping, h.process, h.mark⟩, fun h => ⟨h.1, h.2.1, h.2.2.1, h.2.2.2⟩⟩
  rw [hiff]
  obtain ⟨id, config, state, createdAt, startedAt, stoppedAt, mark, health, count, pid⟩ := st
  rcases state with (_ | _ | _ | _ | _ | _) | text <;> cases mark <;>
    by_cases hsurvived : probe.survived pid id <;>
    simp [FileStore.restoreState, recovered, recoverVM, migratedVM, StateText.active,
      StateText.launched, hsurvived]

variable {st : VmState Public}

theorem mem_pending_of_unique {registered : List Text} {sts : List (VmState Public)}
    (hst : st ∈ sts) (hnew : st.id ∉ registered)
    (huniq : ∀ other ∈ sts, other.id = st.id → other = st) : st ∈ pending registered sts := by
  obtain ⟨first, hfirst, hid⟩ := exists_mem_pending hst hnew
  rwa [huniq first (mem_of_mem_pending hfirst) hid] at hfirst

variable {dir : Dir Public}

theorem lookup_migrate {s : SQLiteStore Public} (hst : st ∈ records dir)
    (huniq : ∀ other ∈ records dir, other.id = st.id → other = st) (hnew : st.id ∉ s.vms) :
    (migrate clock ok dir s).1.vms.lookup st.id = some (migratedVM (clock st.id) st) := by
  rw [migrate_eq]
  have hmem := mem_pending_of_unique hst (mt AList.mem_keys.mpr hnew) huniq
  have hfind := lookup_insertAll_of_unique VM.id s.vms
    (List.mem_map.mpr ⟨st, hmem, rfl⟩ :
      migratedVM (clock st.id) st ∈
        (pending s.vms.keys (records dir)).map fun st => migratedVM (clock st.id) st) ?_
  · rwa [migratedVM_id] at hfind
  · intro v hv hid
    obtain ⟨other, hother, rfl⟩ := List.mem_map.mp hv
    rw [migratedVM_id, migratedVM_id] at hid
    rw [huniq other (mem_of_mem_pending hother) hid]

/-! ## Writing and reading back -/

theorem kept_restoreState (now : Time) (v : VM Public) :
    Kept v (FileStore.restoreState probe now v.toState).1 :=
  have h := kept_recovered probe now
    { v with cfg := .ofPublic v.cfg.shown, daemonRecovered := false, pid := 0, proc := none
             doneClosed := false } v.pid
  { h with }

/-- The VM is found, with all that was persisted, by a file store that opens
the directory when no process is alive. -/
def KeptByFile (clock : Text → Time) (ok : Text → Bool) (dir : Dir Public) (v : VM Public) : Prop :=
  ∃ w, (FileStore.restore .dead clock ⟨∅, dir⟩ ok).vms.lookup v.id = some w ∧ Kept v w

/-- The same for the database. -/
def KeptByTable (clock : Text → Time) (ok : Text → Bool) (table : Rows Public) (v : VM Public) :
    Prop :=
  ∃ w, ((SQLiteStore.opened table).restore .dead clock ok).vms.lookup v.id = some w ∧ Kept v w

/-- Every directory is named by the id of its record, as the file store names
it. -/
def Named (dir : Dir Public) : Prop := ∀ name, ∀ st ∈ (dir.lookup name).join, st.id = name

theorem mem_records :
    st ∈ records dir ↔ ∃ name, dir.lookup name = some (some st) := by
  simp only [records, List.mem_filterMap, ← Option.mem_def, AList.mem_lookup_iff]
  constructor
  · rintro ⟨⟨name, content⟩, hmem, rfl⟩
    exact ⟨name, hmem⟩
  · rintro ⟨name, hmem⟩
    exact ⟨⟨name, some st⟩, hmem, rfl⟩

theorem Named.eq_of_id (h : Named dir) {a b : VmState Public} (ha : a ∈ records dir)
    (hb : b ∈ records dir) (hid : a.id = b.id) : a = b := by
  obtain ⟨name, hname⟩ := mem_records.mp ha
  obtain ⟨name', hname'⟩ := mem_records.mp hb
  have hidA : a.id = name := h name a (by rw [hname]; rfl)
  have hidB : b.id = name' := h name' b (by rw [hname']; rfl)
  rw [← hidA, hid, hidB, hname'] at hname
  cases hname
  rfl

theorem Named.insert (h : Named dir) (st : VmState Public) :
    Named (dir.insert st.id (some st)) := by
  intro name other hother
  by_cases hname : name = st.id
  · subst hname
    rw [AList.lookup_insert] at hother
    cases hother
    rfl
  · rw [AList.lookup_insert_ne hname] at hother
    exact h name other hother

theorem keptByFile_writeState {s : FileStore Public} {v : VM Public} (hreg : v.id ∈ s.vms)
    (hnamed : Named s.dir) : KeptByFile clock ok (s.writeState v true).2.dir v := by
  have hdir : (s.writeState v true).2.dir = s.dir.insert v.id (some v.toState) := by
    unfold FileStore.writeState
    rw [if_pos hreg, if_pos rfl]
  have hst : v.toState ∈ records (s.dir.insert v.id (some v.toState)) :=
    mem_records.mpr ⟨v.id, AList.lookup_insert _⟩
  rw [hdir]
  exact ⟨_, FileStore.lookup_restore hst
    fun other hother hid => (hnamed.insert v.toState).eq_of_id hother hst hid,
    kept_restoreState _ v⟩

theorem createdAt_of_restoreRow {now : Time} {id : Text} {row : Row Public} {p : VM Public × Bool}
    (h : restoreRow probe now id row = some p) : row.createdAt = some p.1.createdAt := by
  obtain ⟨cfg, -, h⟩ := Option.bind_eq_some_iff.mp h
  obtain ⟨createdAt, hcreated, h⟩ := Option.bind_eq_some_iff.mp h
  cases h
  rw [hcreated, (kept_recovered _ now _ row.pid).createdAt]

/-- The upsert keeps the creation time of a row that exists, and so does the
round trip exactly if that is the VM's. -/
theorem keptByTable_writeVM_iff {s : SQLiteStore Public} {v : VM Public} (hreg : v.id ∈ s.vms) :
    KeptByTable clock ok (s.writeVM v true).2.table v ↔
      ∀ row ∈ s.table.lookup v.id, row.createdAt = some v.createdAt := by
  have htable : (s.writeVM v true).2.table = upsert s.table v.id (.ofState v.toState) := by
    unfold writeVM
    rw [if_pos hreg, if_pos rfl]
  rw [htable]
  -- With the right creation time the row that is written is the VM's own.
  have hkept : ∀ table : Rows Public, table.lookup v.id = some (.ofState v.toState) →
      KeptByTable clock ok table v := fun table hrow =>
    ⟨_, lookup_restore (s := .opened table) hrow
      (restoreRow_ofState _ v.toState), kept_restoreState _ v⟩
  cases hold : s.table.lookup v.id with
  | none =>
    have hrow : (upsert s.table v.id (.ofState v.toState)).lookup v.id =
        some (.ofState v.toState) := by
      simp only [upsert, hold, AList.lookup_insert]
    simp [hkept _ hrow]
  | some old =>
    have hrow : (upsert s.table v.id (.ofState v.toState)).lookup v.id =
        some { Row.ofState v.toState with createdAt := old.createdAt } := by
      simp only [upsert, hold, AList.lookup_insert]
    constructor
    · rintro ⟨w, hw, hkeeps⟩ row hmem
      cases hmem
      rw [lookup_restore_opened, hrow, Option.bind_some] at hw
      obtain ⟨p, hp, rfl⟩ := Option.map_eq_some_iff.mp hw
      rw [← hkeeps.createdAt]
      have hcreated := createdAt_of_restoreRow hp
      exact hcreated
    · intro h
      apply hkept
      rw [hrow, h old rfl]
      rfl

/-- The VM with the id `id` that each of the three makes: the file store of its
directory, a store of its table, and the migration of the same directory into a
store. -/
def SameVM (probe : Probe) (clock : Text → Time) (ok : Text → Bool) (files : FileStore Public)
    (rows target : SQLiteStore Public) (id : Text) : Prop :=
  (files.restore probe clock ok).vms.lookup id = (rows.restore probe clock ok).vms.lookup id ∧
    (rows.restore probe clock ok).vms.lookup id =
      (migrate clock ok files.dir target).1.vms.lookup id

/-- For every record that is in a directory and in a table, and every answer of
the host, the three readings agree exactly for the records `ReadsAlike`
describes; and for every registered VM the round trips through both stores keep
what was persisted exactly if no row of the id has another creation time. -/
theorem decoders_agree_iff (probe : Probe) (clock : Text → Time) (ok : Text → Bool)
    (files : FileStore Public) (rows target : SQLiteStore Public) (st : VmState Public)
    (hfile : st ∈ records files.dir) (hnamed : Named files.dir)
    (hrow : rows.table.lookup st.id = some (.ofState st)) (hnew : st.id ∉ target.vms)
    (v : VM Public) (hfiles : v.id ∈ files.vms) (hrows : v.id ∈ rows.vms) :
    (SameVM probe clock ok files rows target st.id ↔ ReadsAlike probe st) ∧
      (KeptByFile clock ok (files.writeState v true).2.dir v ∧
          KeptByTable clock ok (rows.writeVM v true).2.table v ↔
        ∀ row ∈ rows.table.lookup v.id, row.createdAt = some v.createdAt) := by
  have huniq : ∀ other ∈ records files.dir, other.id = st.id → other = st :=
    fun other hother hid => hnamed.eq_of_id hother hfile hid
  constructor
  · unfold SameVM
    rw [FileStore.lookup_restore hfile huniq, lookup_migrate hfile huniq hnew,
      SQLiteStore.lookup_restore hrow (SQLiteStore.restoreRow_ofState _ st),
      ← restoreState_eq_migratedVM_iff (clock st.id)]
    simp
  · rw [keptByTable_writeVM_iff hrows, and_iff_right (keptByFile_writeState hfiles hnamed)]

/-- A file store and a database that have one VM, which was stopped. -/
def stoppedFiles : FileStore Text :=
  FileStore.restore .dead (fun _ => 0) ⟨∅, oneRecord⟩ fun _ => true

theorem named_oneRecord : Named oneRecord := by
  have hempty : Named (∅ : Dir Text) := by
    intro name st hst
    cases hst
  exact hempty.insert stoppedRecord

theorem decoders_agree_stopped :
    SameVM .dead (fun _ => 0) (fun _ => true) stoppedFiles oneRow (.opened ∅) stoppedRecord.id ∧
      KeptByTable (fun _ => 0) (fun _ => true)
        (oneRow.writeVM (FileStore.restoreState .dead 0 stoppedRecord).1 true).2.table
        (FileStore.restoreState .dead 0 stoppedRecord).1 := by
  have hiff := decoders_agree_iff .dead (fun _ => 0) (fun _ => true) stoppedFiles oneRow
    (.opened ∅) stoppedRecord (by decide +kernel) named_oneRecord (by decide +kernel)
    (AList.notMem_empty _) (FileStore.restoreState .dead 0 stoppedRecord).1 (by decide +kernel)
    (by decide +kernel)
  have halike : ReadsAlike .dead stoppedRecord := by
    refine ⟨rfl, by decide, ?_, fun h => nomatch h⟩
    rintro (h | h) <;> cases h
  have hcreated : ∀ row ∈ oneRow.table.lookup stoppedRecord.id, row.createdAt = some 100 := by
    decide +kernel
  exact ⟨hiff.1.mpr halike, (hiff.2.mpr hcreated).2⟩

/-- The record of a VM whose stop was under way. -/
def stoppingRecord : VmState Text := { stoppedRecord with state := .known .stopping }

/-- The stores say that it is stopped; `Migrate` says that it is stopping, and
nobody will ever close its channel. -/
theorem decoders_disagree_stopping :
    ¬SameVM .dead (fun _ => 0) (fun _ => true)
      ⟨∅, (∅ : Dir Text).insert stoppingRecord.id (some stoppingRecord)⟩
      (.opened ((∅ : Rows Text).insert stoppingRecord.id (.ofState stoppingRecord))) (.opened ∅)
      stoppingRecord.id := by
  unfold SameVM
  decide +kernel

end Jerboa.Vm
