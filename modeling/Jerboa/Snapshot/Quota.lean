import Jerboa.Lib.Table
import Jerboa.Snapshot.Names
import Mathlib.Algebra.Order.BigOperators.Group.List

/-!
# The quota

Published and reserved snapshots together keep to `MaxCount`.  The bytes of the
published ones keep to `MaxBytes` as long as no publication comes within the
length of its sidecar of that limit: `Publish` adds up the bytes of the
artifact, and `usageLocked` measures the sidecar too.
-/

namespace Jerboa.Snapshot

open List Net.Address Lib Lib.Run

theorem sum64_eq (l : List Int) : Sys.sum64 l = int64 l.sum := by
  have hfold : ∀ a : Int, int64 a = a →
      l.foldl (fun acc b => int64 (acc + b)) a = int64 (a + l.sum) := by
    induction l with
    | nil =>
      intro a ha
      rw [sum_nil, Int.add_zero, ha, foldl_nil]
    | cons b l ih =>
      intro a _
      rw [foldl_cons, ih _ (int64_int64 _), int64_add, sum_cons, Int.add_assoc]
  rw [Sys.sum64, hfold 0 rfl, Int.zero_add]

namespace Sys

def estimates (s : Sys) (name : Text) : Int :=
  ((s.reserved.entries.filter fun e => e.1 ≠ name).map Sigma.snd).sum

theorem others_eq (s : Sys) (name : Text) : s.others name = int64 (s.estimates name) :=
  sum64_eq _

theorem bytes_eq_of_insert {s s' : Sys} {name : Text} {n : Nat} (hname : name ∉ s.entries)
    (hentries : s'.entries = s.entries.insert name n) : s'.bytes = s.bytes + n := by
  unfold bytes
  rw [hentries, AList.insert_of_notMem hname, map_cons, sum_cons, Nat.add_comm]

theorem bytes_le_of_erase {s s' : Sys} {name : Text}
    (hentries : s'.entries = s.entries.erase name) : s'.bytes ≤ s.bytes := by
  have hsub : (s.entries.erase name).entries.Sublist s.entries.entries := kerase_sublist _ _
  unfold bytes
  rw [hentries]
  exact (hsub.map Sigma.snd).sum_le_sum fun _ _ => Nat.zero_le _

/-- The publication is not within the length of its sidecar of the limit.  What
is renamed is what was verified, the walk of `usageLocked` reads every file, and
no sum is beyond an `int64`. -/
def Clear (s : Sys) (ρ : Reservation) (sizeBytes : Int) (c : PublishCalls) : Prop :=
  sizeBytes = (ρ.artifact + ρ.rest : Nat) ∧ c.missed = 0 ∧
    s.bytes + s.estimates ρ.name + sizeBytes < 2 ^ 63 ∧
    (s.bytes + s.estimates ρ.name + sizeBytes + c.sidecar ≤ s.limits.maxBytes ∨
      s.limits.maxBytes < s.bytes + s.estimates ρ.name + sizeBytes)
deriving Decidable

/-- Every estimate is a size, and every publication is clear of the limit. -/
def Roomy (s : Sys) : Action → Prop
  | .reserve _ estimate _ => 0 ≤ estimate
  | .publish p c =>
    ∀ call ∈ s.publishing[p]?, ∀ ρ ∈ s.reservations[call.reservation]?,
      s.Clear ρ call.sizeBytes c
  | _ => True

instance (s : Sys) (a : Action) : Decidable (s.Roomy a) := by
  cases a <;> unfold Roomy <;> infer_instance

end Sys

/-! ## The invariant -/

/-- The limits are kept, and every estimate is a size. -/
structure Within (limits : Limits) (s : Sys) : Prop where
  limits_eq : s.limits = limits
  names : Inv s
  count : 0 < limits.maxCount →
    (s.entries.keys.length : Int) + s.reserved.keys.length ≤ limits.maxCount
  bytes : 0 < limits.maxBytes → (s.bytes : Int) ≤ limits.maxBytes
  estimates : ∀ e ∈ s.reserved.entries, (0 : Int) ≤ e.2

namespace Within

variable {limits : Limits} {s : Sys}

section

variable (h : Within limits s)
include h

theorem estimates_nonneg (name : Text) : 0 ≤ s.estimates name := by
  refine sum_nonneg fun b hb => ?_
  obtain ⟨e, he, rfl⟩ := mem_map.mp hb
  exact h.estimates e (mem_filter.mp he).1

theorem estimates_erase (name : Text) :
    ∀ e ∈ (s.reserved.erase name).entries, (0 : Int) ≤ e.2 :=
  fun e he => h.estimates e ((kerase_sublist _ _).subset he)

theorem bytes_published {ρ : Reservation} {sizeBytes : Int}
    {c : Sys.PublishCalls} (hclear : s.Clear ρ sizeBytes c) (hpos : 0 < limits.maxBytes)
    (hfits : ¬(0 < s.limits.maxBytes ∧ s.limits.maxBytes < int64 (int64 (int64
      ((s.bytes - c.missed : Nat) : Int) + s.others ρ.name) + sizeBytes))) :
    ((s.bytes + (ρ.artifact + ρ.rest + c.sidecar) : Nat) : Int) ≤ limits.maxBytes := by
  obtain ⟨hsize, hmissed, hrange, hroom⟩ := hclear
  have hnonneg := h.estimates_nonneg ρ.name
  have hsum : int64 (int64 (int64 ((s.bytes - c.missed : Nat) : Int) + s.others ρ.name) +
      sizeBytes) = s.bytes + s.estimates ρ.name + sizeBytes := by
    simp only [hmissed, Nat.sub_zero, Sys.others_eq, int64_add, int64_add_int64]
    exact int64_eq_self (by omega) hrange
  rw [hsum, h.limits_eq] at hfits
  rw [h.limits_eq] at hroom
  push_cast at hsize ⊢
  omega

theorem step {a : Sys.Action} (hroomy : s.Roomy a) :
    Within limits (s.step a) := by
  obtain ⟨hlimits, hchange⟩ := step_change s a
  refine ⟨hlimits.trans h.limits_eq, h.names.step a, fun hpos => ?_, fun hpos => ?_, ?_⟩
  · have hcount := h.count hpos
    cases hchange with
    | same hentries hreserved => rwa [hentries, hreserved]
    | @reserved name estimate _ hmax hentries hreserved =>
      have hle := Lib.Table.length_keys_insert_le s.reserved name estimate
      rw [h.limits_eq] at hmax
      rw [hentries, hreserved]
      omega
    | dropped name hentries hreserved =>
      have hle := Lib.Table.length_keys_erase_le s.reserved name
      rw [hentries, hreserved]
      omega
    | @published _ c call ρ _ hr hlive _ _ hentries hreserved =>
      have hless := Lib.Table.length_keys_erase_of_mem (h.names.mem_reserved hr hlive)
      have hle := Lib.Table.length_keys_insert_le s.entries ρ.name
        (ρ.artifact + ρ.rest + c.sidecar)
      rw [hentries, hreserved]
      omega
    | removed name _ hentries hreserved =>
      have hle := Lib.Table.length_keys_erase_le s.entries name
      rw [hentries, hreserved]
      omega
  · have hbytes := h.bytes hpos
    cases hchange with
    | same hentries | reserved _ hentries | dropped _ hentries =>
      unfold Sys.bytes at hbytes ⊢
      rwa [hentries]
    | published call ρ hcall hr hlive hfree hfits hentries =>
      rw [Sys.bytes_eq_of_insert hfree hentries]
      exact h.bytes_published (hroomy call hcall ρ hr) hpos hfits
    | removed name _ hentries =>
      have hle := Sys.bytes_le_of_erase hentries
      omega
  · cases hchange with
    | same _ hreserved | removed _ _ _ hreserved =>
      rw [hreserved]
      exact h.estimates
    | reserved _ _ hreserved =>
      rw [hreserved, AList.entries_insert]
      intro e he
      rcases mem_cons.mp he with rfl | he
      · exact hroomy
      · exact h.estimates e ((kerase_sublist _ _).subset he)
    | dropped _ _ hreserved | published _ _ _ _ _ _ _ _ hreserved =>
      rw [hreserved]
      exact h.estimates_erase _

end

end Within

/-- In every run whose publications are clear of the byte limit, on a directory
that is within the limits at first: the snapshots published and reserved keep
to `MaxCount`, and the bytes that `usageLocked` finds keep to `MaxBytes`. -/
theorem snapshot_quota_kept (limits : Limits) (entries : AList fun _ : Text => Nat)
    (acts : List Sys.Action)
    (hcount : 0 < limits.maxCount → (entries.keys.length : Int) ≤ limits.maxCount)
    (hbytes : 0 < limits.maxBytes → ((Sys.opened limits entries).bytes : Int) ≤ limits.maxBytes)
    (hroomy : AllSteps Sys.step Sys.Roomy (Sys.opened limits entries) acts) :
    (0 < limits.maxCount →
      ((Sys.after limits entries acts).entries.keys.length : Int) +
        (Sys.after limits entries acts).reserved.keys.length ≤ limits.maxCount) ∧
      ∀ missed count used, (Sys.after limits entries acts).usage true missed = some (count, used) →
        0 < limits.maxBytes → used ≤ limits.maxBytes := by
  have hopened : Within limits (Sys.opened limits entries) :=
    ⟨rfl, inv_opened limits entries,
      fun hpos => Int.le_trans (Int.le_of_eq (Int.add_zero _)) (hcount hpos), hbytes, nofun⟩
  have hwithin : Within limits (Sys.after limits entries acts) :=
    run_invariant_of_allSteps (fun _ _ h ha => h.step ha) hopened hroomy
  refine ⟨hwithin.count, fun missed count used husage hpos => ?_⟩
  rw [Sys.usage, if_pos rfl, Option.some.injEq, Prod.mk.injEq] at husage
  have hle := int64_le_self
    (Int.natCast_nonneg ((Sys.after limits entries acts).bytes - missed))
  have hbound := hwithin.bytes hpos
  omega

/-- A snapshot of `size` bytes is captured and published. -/
def captured (size : Nat) : List Sys.Action :=
  [.reserve "a".toList size reserveCalls, .stage 0 size 0, .verify 0 true,
    .publish 0 publishCalls]

theorem snapshot_quota_kept_captured :
    ((Sys.after ⟨1, 2000⟩ ∅ (captured 900)).usage true 0 = some (1, 1400) ∧
      ((Sys.after ⟨1, 2000⟩ ∅ (captured 900)).reserve "b".toList 1 reserveCalls).1.toOption =
        none) ∧
      (0 < (1 : Int) →
        ((Sys.after ⟨1, 2000⟩ ∅ (captured 900)).entries.keys.length : Int) +
          (Sys.after ⟨1, 2000⟩ ∅ (captured 900)).reserved.keys.length ≤ 1) ∧
      ∀ missed count used, (Sys.after ⟨1, 2000⟩ ∅ (captured 900)).usage true missed =
        some (count, used) → 0 < (2000 : Int) → used ≤ 2000 :=
  ⟨by decide +kernel, snapshot_quota_kept ⟨1, 2000⟩ ∅ (captured 900) (by decide) (by decide)
    (by decide +kernel)⟩

/-- An artifact of 900 bytes passes the check against 1000, and the entry holds
its sidecar of 500 bytes as well. -/
theorem published_beyond_limit :
    (Sys.after ⟨1, 1000⟩ ∅ (captured 900)).usage true 0 = some (1, 1400) ∧
      ¬∀ missed count used, (Sys.after ⟨1, 1000⟩ ∅ (captured 900)).usage true missed =
        some (count, used) → 0 < (1000 : Int) → used ≤ 1000 := by
  have husage : (Sys.after ⟨1, 1000⟩ ∅ (captured 900)).usage true 0 = some (1, 1400) := by
    decide +kernel
  refine ⟨husage, fun hkept => ?_⟩
  exact absurd (hkept 0 1 1400 husage (by decide)) (by decide)

end Jerboa.Snapshot
