import Jerboa.Vm.Store

/-!
# Restoring the registry

What a start of the daemon finds in the registry: for every record that can be
read, the VM made of it.  Writing back the VMs whose state has changed comes
after that and does not touch the registry.
-/

namespace Jerboa.Vm

open Lib.Table Net.Address

variable {Public : Type} {probe : Probe} {clock : Text → Time}
  {ok : Text → Bool}

/-- The VM `w` has what was persisted of `v`.  Of the times, only that of the
stop may differ, where a recovery has set it. -/
structure Kept (v w : VM Public) : Prop where
  id : w.id = v.id
  cfg : w.cfg.shown = v.cfg.shown
  createdAt : w.createdAt = v.createdAt
  startedAt : w.startedAt = v.startedAt
  stoppedAt : v.state.active = false → w.stoppedAt = v.stoppedAt
  healthStatus : w.healthStatus = v.healthStatus
  restartCount : w.restartCount = v.restartCount

theorem kept_recovered (probe : Probe) (now : Time) (v : VM Public) (pid : Int) :
    Kept v (recovered probe now v pid).1 := by
  by_cases hactive : v.state.active = true
  · have hstopped : v.state.active = false → False := by simp [hactive]
    unfold recovered recoverVM
    rw [if_pos hactive]
    split_ifs
    · exact ⟨rfl, rfl, rfl, rfl, fun _ => rfl, rfl, rfl⟩
    · exact ⟨rfl, rfl, rfl, rfl, fun h => (hstopped h).elim, rfl, rfl⟩
  · unfold recovered
    rw [if_neg hactive]
    split_ifs <;> exact ⟨rfl, rfl, rfl, rfl, fun _ => rfl, rfl, rfl⟩

namespace FileStore

@[simp] theorem restoreState_id (now : Time) (st : VmState Public) :
    (restoreState probe now st).1.id = st.id :=
  (kept_recovered probe now _ st.pid).id

theorem vms_writeState (s : FileStore Public) (v : VM Public) (ok : Bool) :
    (s.writeState v ok).2.vms = s.vms := by
  unfold writeState
  split_ifs <;> rfl

theorem vms_foldl_writeState (vs : List (VM Public)) (s : FileStore Public) :
    (vs.foldl (fun s v => (s.writeState v (ok v.id)).2) s).vms = s.vms := by
  induction vs generalizing s with
  | nil => rfl
  | cons v vs ih => rw [List.foldl_cons, ih, vms_writeState]

theorem vms_restore (s : FileStore Public) :
    (s.restore probe clock ok).vms =
      insertAll VM.id s.vms
        ((records s.dir).map fun st => (restoreState probe (clock st.id) st).1) := by
  simp only [restore, vms_foldl_writeState, List.map_map]
  rfl

theorem lookup_restore {s : FileStore Public} {st : VmState Public} (hst : st ∈ records s.dir)
    (huniq : ∀ other ∈ records s.dir, other.id = st.id → other = st) :
    (s.restore probe clock ok).vms.lookup st.id =
      some (restoreState probe (clock st.id) st).1 := by
  rw [vms_restore]
  have hfind := lookup_insertAll_of_unique VM.id s.vms
    (List.mem_map.mpr ⟨st, hst, rfl⟩ :
      (restoreState probe (clock st.id) st).1 ∈
        (records s.dir).map fun st => (restoreState probe (clock st.id) st).1) ?_
  · rwa [restoreState_id] at hfind
  · intro v hv hid
    obtain ⟨other, hother, rfl⟩ := List.mem_map.mp hv
    rw [restoreState_id, restoreState_id] at hid
    rw [huniq other hother hid]

end FileStore

/-! ## The database -/

namespace SQLiteStore

variable {id : Text} {p : VM Public × Bool}

theorem restoreRow_id {now : Time} {row : Row Public} (h : restoreRow probe now id row = some p) :
    p.1.id = id := by
  obtain ⟨cfg, -, h⟩ := Option.bind_eq_some_iff.mp h
  obtain ⟨createdAt, -, h⟩ := Option.bind_eq_some_iff.mp h
  cases h
  exact (kept_recovered probe now _ row.pid).id

theorem restoreRow_ofState (now : Time) (st : VmState Public) :
    restoreRow probe now st.id (.ofState st) = some (FileStore.restoreState probe now st) := by
  have htime : ∀ t : Option Time, (t.map some).join = t := by
    intro t
    cases t <;> rfl
  simp only [restoreRow, Row.ofState, htime, Option.bind_eq_bind, Option.bind_some,
    FileStore.restoreState]
  rfl

theorem vms_writeVM (s : SQLiteStore Public) (v : VM Public) (ok : Bool) :
    (s.writeVM v ok).2.vms = s.vms := by
  unfold writeVM
  split_ifs <;> rfl

theorem vms_foldl_writeVM (vs : List (VM Public)) (s : SQLiteStore Public) :
    (vs.foldl (fun s v => (s.writeVM v (ok v.id)).2) s).vms = s.vms := by
  induction vs generalizing s with
  | nil => rfl
  | cons v vs ih => rw [List.foldl_cons, ih, vms_writeVM]

theorem vms_restore (s : SQLiteStore Public) :
    (s.restore probe clock ok).vms =
      insertAll VM.id s.vms ((restoredRows probe clock s.table).map Prod.fst) := by
  simp only [restore, vms_foldl_writeVM]

theorem mem_restoredRows {table : Rows Public} :
    p ∈ restoredRows probe clock table ↔
      ∃ id, ∃ row ∈ table.lookup id, restoreRow probe (clock id) id row = some p := by
  simp only [restoredRows, List.mem_filterMap, AList.mem_lookup_iff]
  constructor
  · rintro ⟨⟨id, row⟩, hmem, hrow⟩
    exact ⟨id, row, hmem, hrow⟩
  · rintro ⟨id, row, hmem, hrow⟩
    exact ⟨⟨id, row⟩, hmem, hrow⟩

variable {s : SQLiteStore Public}

theorem lookup_restore {row : Row Public} (hrow : s.table.lookup id = some row)
    (hread : restoreRow probe (clock id) id row = some p) :
    (s.restore probe clock ok).vms.lookup id = some p.1 := by
  rw [vms_restore, ← restoreRow_id hread]
  apply lookup_insertAll_of_unique VM.id
  · exact List.mem_map_of_mem (mem_restoredRows.mpr ⟨id, row, hrow, hread⟩)
  · intro v hv hid
    obtain ⟨q, hq, rfl⟩ := List.mem_map.mp hv
    obtain ⟨other, row', hrow', hread'⟩ := mem_restoredRows.mp hq
    rw [restoreRow_id hread', restoreRow_id hread] at hid
    subst hid
    rw [Option.mem_def, hrow] at hrow'
    cases hrow'
    rw [hread] at hread'
    cases hread'
    rfl

theorem mem_restore :
    id ∈ (s.restore probe clock ok).vms ↔
      id ∈ s.vms ∨ ∃ row ∈ s.table.lookup id, (restoreRow probe (clock id) id row).isSome := by
  rw [vms_restore, mem_insertAll]
  apply or_congr_right
  constructor
  · rintro ⟨v, hv, rfl⟩
    obtain ⟨p, hp, rfl⟩ := List.mem_map.mp hv
    obtain ⟨id, row, hrow, hread⟩ := mem_restoredRows.mp hp
    rw [restoreRow_id hread]
    exact ⟨row, hrow, by rw [hread]; rfl⟩
  · rintro ⟨row, hrow, hread⟩
    obtain ⟨p, hp⟩ := Option.isSome_iff_exists.mp hread
    exact ⟨p.1, List.mem_map_of_mem (mem_restoredRows.mpr ⟨id, row, hrow, hp⟩), restoreRow_id hp⟩

theorem mem_of_mem_restore (h : id ∈ (s.restore probe clock ok).vms) :
    id ∈ s.vms ∨ id ∈ s.table := by
  rcases mem_restore.mp h with hreg | ⟨row, hrow, -⟩
  · exact .inl hreg
  · exact .inr (AList.lookup_isSome.mp (by rw [hrow]; rfl))

theorem mem_restore_of_mem (h : id ∈ s.vms) :
    id ∈ (s.restore probe clock ok).vms :=
  mem_restore.mpr (.inl h)

theorem lookup_restore_opened (table : Rows Public) (id : Text) :
    ((opened table).restore probe clock ok).vms.lookup id =
      ((table.lookup id).bind (restoreRow probe (clock id) id)).map Prod.fst := by
  cases hbind : (table.lookup id).bind (restoreRow probe (clock id) id) with
  | none =>
    rw [Option.map_none, AList.lookup_eq_none]
    intro hmem
    rcases mem_restore.mp hmem with hreg | ⟨row, hrow, hread⟩
    · exact AList.notMem_empty id hreg
    · have hrow : table.lookup id = some row := hrow
      rw [hrow, Option.bind_some] at hbind
      rw [hbind] at hread
      cases hread
  | some =>
    obtain ⟨row, hrow, hread⟩ := Option.bind_eq_some_iff.mp hbind
    rw [Option.map_some, lookup_restore (s := opened table) hrow hread]

end SQLiteStore

end Jerboa.Vm
