import Jerboa.Lib.Run
import Jerboa.Vm.Restore

/-!
# The migration to the database

What `Migrate` leaves behind.  `writeVM` writes a VM only while it is
registered, and `Migrate` calls it before it registers the VM, so that the
table is what it was; the VMs are in the registry of this process only.  The
directory keeps its records, and the next start reads them again.
-/

namespace Jerboa.Vm

open List Lib.Run Lib.Table Net.Address AList

variable {Public : Type} {clock : Text → Time} {ok : Text → Bool}

/-! ## One run of the migration -/

variable {s : SQLiteStore Public}

theorem SQLiteStore.writeVM_of_notMem {v : VM Public} (h : v.id ∉ s.vms) (ok : Bool) :
    s.writeVM v ok = (true, s) := by
  unfold SQLiteStore.writeVM
  rw [if_neg h]

@[simp] theorem migratedVM_id (now : Time) (st : VmState Public) :
    (migratedVM now st).id = st.id := by
  unfold migratedVM
  split_ifs <;> rfl

/-- The records `Migrate` takes over: the first one of every id that is not
registered yet. -/
def pending (registered : List Text) : List (VmState Public) → List (VmState Public)
  | [] => []
  | st :: rest =>
    if st.id ∈ registered then pending registered rest
    else st :: pending (st.id :: registered) rest

variable {st : VmState Public}

theorem mem_of_mem_pending {registered : List Text} {sts : List (VmState Public)}
    (h : st ∈ pending registered sts) : st ∈ sts := by
  induction sts generalizing registered with
  | nil => exact h
  | cons first rest ih =>
    unfold pending at h
    split_ifs at h
    · exact mem_cons_of_mem first (ih h)
    · rcases mem_cons.mp h with rfl | h
      · exact mem_cons_self
      · exact mem_cons_of_mem first (ih h)

theorem exists_mem_pending {registered : List Text} {sts : List (VmState Public)} (h : st ∈ sts)
    (hnew : st.id ∉ registered) :
    ∃ first ∈ pending registered sts, first.id = st.id := by
  induction sts generalizing registered with
  | nil => exact absurd h not_mem_nil
  | cons first rest ih =>
    unfold pending
    split_ifs with hfirst
    · rcases mem_cons.mp h with rfl | h
      · exact absurd hfirst hnew
      · exact ih h hnew
    · by_cases hid : first.id = st.id
      · exact ⟨first, mem_cons_self, hid⟩
      · rcases mem_cons.mp h with rfl | h
        · exact absurd rfl hid
        · have hlater : st.id ∉ first.id :: registered := by simp [hnew, Ne.symm hid]
          obtain ⟨later, hlater, heq⟩ := ih h hlater
          exact ⟨later, mem_cons_of_mem first hlater, heq⟩

theorem migrateRecord_of_mem {acc : SQLiteStore Public × List (VM Public)} (h : st.id ∈ acc.1.vms) :
    migrateRecord clock ok acc st = acc := by
  unfold migrateRecord
  rw [if_pos h]

/-- A record that is taken over is registered and counted, and nothing is
written: the VM is not registered when `writeVM` looks. -/
theorem migrateRecord_of_notMem {acc : SQLiteStore Public × List (VM Public)}
    (h : st.id ∉ acc.1.vms) :
    migrateRecord clock ok acc st =
      (⟨acc.1.vms.insert st.id (migratedVM (clock st.id) st), acc.1.table⟩,
        acc.2 ++ [migratedVM (clock st.id) st]) := by
  have hv : (migratedVM (clock st.id) st).id ∉ acc.1.vms := by
    rwa [migratedVM_id]
  unfold migrateRecord
  rw [if_neg h]
  simp only [SQLiteStore.writeVM_of_notMem hv, migratedVM_id]

theorem foldl_migrateRecord (sts : List (VmState Public)) (registered : List Text)
    (s : SQLiteStore Public) (counted : List (VM Public))
    (hreg : ∀ id, id ∈ s.vms ↔ id ∈ registered) :
    sts.foldl (migrateRecord clock ok) (s, counted) =
      (⟨insertAll VM.id s.vms
          ((pending registered sts).map fun st => migratedVM (clock st.id) st), s.table⟩,
        counted ++ (pending registered sts).map fun st => migratedVM (clock st.id) st) := by
  induction sts generalizing registered s counted with
  | nil => simp [pending]
  | cons st rest ih =>
    rw [foldl_cons]
    unfold pending
    by_cases hst : st.id ∈ s.vms
    · rw [migrateRecord_of_mem hst, if_pos ((hreg st.id).mp hst)]
      exact ih registered s counted hreg
    · rw [migrateRecord_of_notMem hst, if_neg (mt (hreg st.id).mpr hst),
        ih (st.id :: registered) _ _ (by simp [hreg])]
      simp

theorem migrate_eq (dir : Dir Public) (s : SQLiteStore Public) :
    migrate clock ok dir s =
      (⟨insertAll VM.id s.vms ((pending s.vms.keys (records dir)).map
          fun st => migratedVM (clock st.id) st), s.table⟩,
        (pending s.vms.keys (records dir)).map fun st => migratedVM (clock st.id) st) := by
  unfold migrate
  rw [foldl_migrateRecord _ s.vms.keys s [] fun id => mem_keys.symm]
  simp

/-- The row says of a VM what the VM says of itself: its configuration, its
state and its times. -/
def Row.Records (row : Row Public) (v : VM Public) : Prop :=
  row.config = some v.cfg.shown ∧ row.state = v.state ∧ row.createdAt = some v.createdAt ∧
    row.startedAt = v.startedAt.map some ∧ row.stoppedAt = v.stoppedAt.map some

instance [DecidableEq Public] (row : Row Public) (v : VM Public) : Decidable (row.Records v) :=
  inferInstanceAs (Decidable (_ ∧ _ ∧ _ ∧ _ ∧ _))

/-- The table has the row of a VM. -/
def Recorded (table : Rows Public) (v : VM Public) : Prop :=
  ∃ row ∈ table.lookup v.id, row.Records v

/-- A process that opens the table and restores the registry has the VM. -/
def SeenAfresh (table : Rows Public) (v : VM Public) : Prop :=
  ∀ probe clock ok, ∃ w,
    ((SQLiteStore.opened table).restore probe clock ok).vms.lookup v.id = some w ∧
      w.cfg.shown = v.cfg.shown ∧ w.createdAt = v.createdAt ∧ w.startedAt = v.startedAt

theorem Recorded.seenAfresh {table : Rows Public} {v : VM Public} (h : Recorded table v) :
    SeenAfresh table v := by
  intro probe clock ok
  obtain ⟨row, hrow, hcfg, -, hcreated, hstarted, -⟩ := h
  have hread : ∃ p, SQLiteStore.restoreRow probe (clock v.id) v.id row = some p ∧
      p.1.cfg.shown = v.cfg.shown ∧ p.1.createdAt = v.createdAt ∧ p.1.startedAt = v.startedAt := by
    simp only [SQLiteStore.restoreRow, hcfg, hcreated, Option.bind_eq_bind, Option.bind_some]
    refine ⟨_, rfl, ?_⟩
    have hkept := kept_recovered probe (clock v.id)
      { id := v.id, cfg := .ofPublic v.cfg.shown, state := row.state, createdAt := v.createdAt
        startedAt := row.startedAt.join, stoppedAt := row.stoppedAt.join
        daemonRecovered := false, healthStatus := row.healthStatus
        restartCount := row.restartCount, pid := 0, proc := none, doneClosed := false } row.pid
    refine ⟨hkept.cfg, hkept.createdAt, hkept.startedAt.trans ?_⟩
    rw [hstarted]
    cases v.startedAt <;> rfl
  obtain ⟨p, hp, hfields⟩ := hread
  exact ⟨p.1, SQLiteStore.lookup_restore hrow hp, hfields⟩

/-- What `Migrate` counts is durable exactly if it was durable before: the
records it takes over have their rows in the table already. -/
theorem migrate_durable_iff (clock : Text → Time) (ok : Text → Bool) (dir : Dir Public)
    (s : SQLiteStore Public) :
    (∀ v ∈ (migrate clock ok dir s).2,
        Recorded (migrate clock ok dir s).1.table v ∧ SeenAfresh
          (migrate clock ok dir s).1.table v) ↔
      ∀ st ∈ pending s.vms.keys (records dir), Recorded s.table (migratedVM (clock st.id) st) := by
  rw [migrate_eq]
  constructor
  · intro h st hst
    exact (h _ (mem_map.mpr ⟨st, hst, rfl⟩)).1
  · intro h v hv
    obtain ⟨st, hst, rfl⟩ := mem_map.mp hv
    exact ⟨h st hst, (h st hst).seenAfresh⟩

/-- The record of a VM that was stopped, in a directory of its own. -/
def stoppedRecord : VmState Text where
  id := "0a1b2c3d4e5f".toList
  config := "web".toList
  state := .known .stopped
  createdAt := 100
  startedAt := some 200
  stoppedAt := some 300
  daemonRecovered := false
  healthStatus := []
  restartCount := 0
  pid := 0

def oneRecord : Dir Text := (∅ : Dir Text).insert stoppedRecord.id (some stoppedRecord)

/-- `Migrate` counts the VM, and the table stays empty. -/
theorem counted_not_durable :
    (migrate (fun _ => 0) (fun _ => true) oneRecord (.opened ∅)).2.length = 1 ∧
      ¬∀ v ∈ (migrate (fun _ => 0) (fun _ => true) oneRecord (.opened ∅)).2,
        Recorded (migrate (fun _ => 0) (fun _ => true) oneRecord (.opened ∅)).1.table v ∧
          SeenAfresh (migrate (fun _ => 0) (fun _ => true) oneRecord (.opened ∅)).1.table v := by
  have hmem : migratedVM 0 stoppedRecord ∈
      (migrate (fun _ => 0) (fun _ => true) oneRecord (.opened ∅)).2 := by
    decide +kernel
  refine ⟨by decide +kernel, fun h => ?_⟩
  obtain ⟨⟨row, hrow, -⟩, -⟩ := h _ hmem
  rw [migrate_eq] at hrow
  cases hrow

/-! ## Removed VMs and later starts -/

/-- What can happen to a daemon on a database.  A start is a new process:
`newVMStore` migrates, then the registry is restored.  `save` is a write of any
VM, also of one that was removed while somebody still held it, and `touch` a
change of a registered VM in memory. -/
inductive Action (Public : Type) where
  | start (probe : Probe) (clock : Text → Time) (ok : Text → Bool)
  | create (id : Text) (cfg : Config Public) (now : Time) (ok : Bool)
  | remove (id : Text) (ok : Bool)
  | save (v : VM Public) (ok : Bool)
  | touch (v : VM Public)

/-- The daemon on the file store directory `dir`, which it does not write. -/
def step (dir : Dir Public) (s : SQLiteStore Public) : Action Public → SQLiteStore Public
  | .start probe clock ok => (migrate clock ok dir (.opened s.table)).1.restore probe clock ok
  | .create id cfg now ok => (s.create id cfg now ok).2
  | .remove id ok => (s.remove id ok).2
  | .save v ok => (s.writeVM v ok).2
  | .touch v => if v.id ∈ s.vms then { s with vms := s.vms.insert v.id v } else s

def Action.creates (id : Text) : Action Public → Prop
  | .create other _ _ _ => other = id
  | _ => False

structure Gone (id : Text) (s : SQLiteStore Public) : Prop where
  vms : id ∉ s.vms
  table : id ∉ s.table

variable {id : Text}

theorem mem_upsert {table : Rows Public} {row : Row Public} {k : Text} :
    k ∈ upsert table id row ↔ k = id ∨ k ∈ table := by
  unfold upsert
  split <;> exact mem_insert _

theorem Gone.writeVM (h : Gone id s) (v : VM Public) (ok : Bool) : Gone id (s.writeVM v ok).2 := by
  refine ⟨by rw [SQLiteStore.vms_writeVM]; exact h.vms, ?_⟩
  unfold SQLiteStore.writeVM
  split_ifs with hreg hok
  · intro hmem
    rcases mem_upsert.mp hmem with rfl | hmem
    · exact h.vms hreg
    · exact h.table hmem
  · exact h.table
  · exact h.table

theorem Gone.foldl_writeVM (h : Gone id s) (vs : List (VM Public)) (ok : Text → Bool) :
    Gone id (vs.foldl (fun s v => (s.writeVM v (ok v.id)).2) s) := by
  induction vs generalizing s with
  | nil => exact h
  | cons v vs ih => exact ih (h.writeVM v _)

theorem Gone.restore (h : Gone id s) (probe : Probe) (clock : Text → Time) (ok : Text → Bool) :
    Gone id (s.restore probe clock ok) := by
  have hvms : id ∉ (s.restore probe clock ok).vms := by
    intro hmem
    rcases SQLiteStore.mem_of_mem_restore hmem with hmem | hmem
    · exact h.vms hmem
    · exact h.table hmem
  rw [SQLiteStore.vms_restore] at hvms
  have hread : Gone id { s with
      vms := insertAll VM.id s.vms
        ((SQLiteStore.restoredRows probe clock s.table).map Prod.fst) } := ⟨hvms, h.table⟩
  exact hread.foldl_writeVM _ ok

variable {dir : Dir Public}

theorem Gone.start (h : Gone id s) (hdir : ∀ st ∈ records dir, st.id ≠ id) (probe : Probe)
    (clock : Text → Time) (ok : Text → Bool) : Gone id (step dir s (.start probe clock ok)) := by
  apply Gone.restore
  rw [migrate_eq]
  refine ⟨?_, h.table⟩
  rw [mem_insertAll]
  rintro (hmem | ⟨v, hv, hid⟩)
  · exact absurd hmem (notMem_empty id)
  · obtain ⟨st, hst, rfl⟩ := mem_map.mp hv
    rw [migratedVM_id] at hid
    exact hdir st (mem_of_mem_pending hst) hid

theorem Gone.create (h : Gone id s) {other : Text} (hother : other ≠ id) (cfg : Config Public)
    (now : Time) (ok : Bool) :
    Gone id (s.create other cfg now ok).2 := by
  have hinsert : Gone id { s with vms := s.vms.insert other (newVM other cfg now) } :=
    ⟨by simp [mem_insert, h.vms, Ne.symm hother], h.table⟩
  have hwrite := hinsert.writeVM (newVM other cfg now) ok
  unfold SQLiteStore.create
  dsimp only
  split
  · rename_i s' heq
    rw [heq] at hwrite
    exact hwrite
  · rename_i s' heq
    rw [heq] at hwrite
    exact ⟨fun hmem => hwrite.vms (mem_erase.mp hmem).2, hwrite.table⟩

theorem Gone.remove (h : Gone id s) (other : Text) (ok : Bool) : Gone id (s.remove other ok).2 := by
  unfold SQLiteStore.remove
  split_ifs
  · exact ⟨fun hmem => h.vms (mem_erase.mp hmem).2,
      fun hmem => h.table (mem_erase.mp hmem).2⟩
  · exact ⟨fun hmem => h.vms (mem_erase.mp hmem).2, h.table⟩
  · exact h

theorem Gone.step (hdir : ∀ st ∈ records dir, st.id ≠ id) (h : Gone id s) {a : Action Public}
    (ha : ¬a.creates id) :
    Gone id (step dir s a) := by
  cases a with
  | start probe clock ok => exact h.start hdir probe clock ok
  | create other cfg now ok => exact h.create ha cfg now ok
  | remove other ok => exact h.remove other ok
  | save v ok => exact h.writeVM v ok
  | touch =>
    dsimp only [Vm.step]
    split_ifs with hreg
    · refine ⟨?_, h.table⟩
      rw [mem_insert]
      rintro (rfl | hmem)
      · exact h.vms hreg
      · exact h.vms hmem
    · exact h

theorem gone_of_remove {s s' : SQLiteStore Public} {ok : Bool} (h : s.remove id ok = (true, s')) :
    Gone id s' := by
  unfold SQLiteStore.remove at h
  split_ifs at h <;> cases h
  exact ⟨fun hmem => (mem_erase.mp hmem).1 rfl, fun hmem => (mem_erase.mp hmem).1 rfl⟩

theorem mem_start_of_record (hst : st ∈ records dir) (s : SQLiteStore Public) (probe : Probe)
    (clock : Text → Time) (ok : Text → Bool) :
    st.id ∈ (step dir s (.start probe clock ok)).vms := by
  apply SQLiteStore.mem_restore_of_mem
  rw [migrate_eq, mem_insertAll]
  have hnew : st.id ∉ (SQLiteStore.opened s.table).vms.keys := notMem_empty st.id
  obtain ⟨first, hfirst, hid⟩ := exists_mem_pending hst hnew
  exact .inr ⟨_, mem_map.mpr ⟨first, hfirst, rfl⟩, by rw [migratedVM_id, hid]⟩

/-- A VM that was removed stays away, whatever is done and however often the
daemon starts, exactly if the file store directory has no record of it. -/
theorem removed_stays_iff (dir : Dir Public) (s s' : SQLiteStore Public) (id : Text) (ok : Bool)
    (hremove : s.remove id ok = (true, s')) :
    (∀ acts : List (Action Public), (∀ a ∈ acts, ¬a.creates id) →
        id ∉ (run (step dir) s' acts).vms) ↔
      ∀ st ∈ records dir, st.id ≠ id := by
  constructor
  · rintro h st hst rfl
    have habsent := h [.start .dead (fun _ => 0) fun _ => true] (by simp [Action.creates])
    rw [run_cons, run_nil] at habsent
    exact habsent (mem_start_of_record hst s' _ _ _)
  · intro hdir acts hacts
    have hgone : Gone id (run (step dir) s' acts) :=
      run_invariant_of_allSteps (fun _ _ hgone ha => hgone.step hdir ha) (gone_of_remove hremove)
        (allSteps_of_forall hacts)
    exact hgone.vms

def oneRow : SQLiteStore Text :=
  step ∅ (.opened ((∅ : Rows Text).insert stoppedRecord.id (.ofState stoppedRecord)))
    (.start .dead (fun _ => 0) fun _ => true)

/-- A directory with the record of another VM. -/
def otherRecord : Dir Text :=
  (∅ : Dir Text).insert "5f4e3d2c1b0a".toList
    (some { stoppedRecord with id := "5f4e3d2c1b0a".toList })

/-- A daemon with both VMs, one by its row and one by its record. -/
def rowAndRecord : SQLiteStore Text :=
  step otherRecord (.opened ((∅ : Rows Text).insert stoppedRecord.id (.ofState stoppedRecord)))
    (.start .dead (fun _ => 0) fun _ => true)

theorem removed_stays_without_record :
    ("5f4e3d2c1b0a".toList ∈ rowAndRecord.vms ∧
      (rowAndRecord.remove stoppedRecord.id true).1 = true) ∧
      ∀ acts : List (Action Text), (∀ a ∈ acts, ¬a.creates stoppedRecord.id) →
        stoppedRecord.id ∉
          (run (step otherRecord) (rowAndRecord.remove stoppedRecord.id true).2 acts).vms :=
  have hok : (rowAndRecord.remove stoppedRecord.id true).1 = true := by decide +kernel
  ⟨⟨by decide +kernel, hok⟩,
    (removed_stays_iff otherRecord rowAndRecord _ stoppedRecord.id true (Prod.ext hok rfl)).mpr
      (by decide +kernel)⟩

/-- A daemon that knows the VM from the directory. -/
def migratedDaemon : SQLiteStore Text :=
  step oneRecord (.opened ∅) (.start .dead (fun _ => 0) fun _ => true)

/-- Its record is still there at the next start. -/
theorem removed_comes_back :
    (migratedDaemon.remove stoppedRecord.id true).1 = true ∧
      stoppedRecord.id ∈ (run (step oneRecord) (migratedDaemon.remove stoppedRecord.id true).2
        [.start .dead (fun _ => 1) fun _ => true]).vms := by
  constructor <;> decide +kernel

end Jerboa.Vm
