import Jerboa.Vm.Lifecycle

/-!
# The wait before an automatic restart

`restartVM` of both managers waits before it makes a replacement, for a time that
doubles with the restarts that went before, up to half a minute.  It computes the
time in a `time.Duration`, which is a 64-bit number of nanoseconds: the doubled second
leaves its range at the 34th restart, before it is compared with the cap.
-/

namespace Jerboa.Vm.Backoff

open Net.Address Vm.Lifecycle Lib.Run

def replacement (old : Obj) (id : Text) : Obj :=
  { Obj.new id old.cfg with restartCount := old.restartCount + 1 }

def Restarts (old new : Obj) : Prop :=
  ∃ failed id, shouldRestart old failed false = true ∧ new = replacement old id

theorem Restarts.count {old new : Obj} (h : Restarts old new) :
    new.restartCount = old.restartCount + 1 := by
  obtain ⟨failed, id, -, rfl⟩ := h
  rfl

/-- `w` came from `v` by automatic restarts. -/
abbrev Chain : Obj → Obj → Prop := Relation.ReflTransGen Restarts

section Steps

variable {backend : Backend} {s : Sys} {t : Nat} {th : Thread} {r : Ref}

/-- The two steps in which a restart makes a VM and sets its count make the replacement. -/
theorem objs_create_setCount {c : Choice} (hth : s.threads t = some th) (href : th.ref = some r)
    (hpc : th.pc = .body .create) (hr : r < s.nextRef) (hfresh : s.FreshId c.id) (c' : Choice) :
    (run (step backend) s [.advance t c, .advance t c']).objs s.nextRef =
      replacement (s.objs r) c.id := by
  have hne : r ≠ s.nextRef := hr.ne
  simp [Lifecycle.step, hth, plan, hpc, href, planBody, hfresh, Sys.apply, Sys.changeStore,
    Sys.addVM, Sys.goOn, Sys.write, ClaimChange.apply, Thread.goto, hne, replacement,
    Function.update]

/-- A monitor of QEMU that answers the exit of its VM comes, if nothing comes in between, by
four steps to the next VM of the chain. -/
theorem restarts_of_decide {failed : Bool} {c : Choice} (hth : s.threads t = some th)
    (href : th.ref = some r) (hpc : th.pc = .body (.decide failed false)) (hr : r < s.nextRef)
    (hshould : shouldRestart (s.objs r) failed false = true) (hfresh : s.FreshId c.id)
    (c₁ c₂ c₃ : Choice) :
    Restarts (s.objs r) ((run (step .qemu) s
      [.advance t c₁, .advance t c₂, .advance t c, .advance t c₃]).objs s.nextRef) := by
  let th' : Thread := ⟨.restart, some r, none, none, .body .create⟩
  let s' : Sys := { s with threads := Function.update s.threads t (some th') }
  have hcreate : run (step .qemu) s [.advance t c₁, .advance t c₂] = s' := by
    simp [Lifecycle.step, hth, plan, hpc, href, planBody, hshould, Sys.apply, Sys.changeStore,
      Sys.goOn, Sys.write, ClaimChange.apply, Thread.goto, s', th']
  have hnew : (run (step .qemu) s' [.advance t c, .advance t c₃]).objs s.nextRef =
      replacement (s.objs r) c.id :=
    objs_create_setCount (s := s') (Function.update_self t (some th') s.threads) rfl rfl hr
      hfresh c₃
  rw [← hcreate, ← run_append] at hnew
  exact ⟨failed, c.id, hshould, hnew⟩

end Steps

theorem restartCount_le {v w : Obj} (h : Chain v w) : v.restartCount ≤ w.restartCount := by
  induction h with
  | refl => exact le_refl _
  | tail _ hstep =>
    have hcount := hstep.count
    omega

theorem exists_count {v w : Obj} (h : Chain v w) {n : Int} (hv : v.restartCount ≤ n)
    (hw : n ≤ w.restartCount) : ∃ u, Chain v u ∧ Chain u w ∧ u.restartCount = n := by
  induction h with
  | refl => exact ⟨v, .refl, .refl, by omega⟩
  | @tail old new hchain hstep ih =>
    have hcount := hstep.count
    by_cases hn : n ≤ old.restartCount
    · obtain ⟨u, hfirst, hrest, hu⟩ := ih hn
      exact ⟨u, hfirst, hrest.tail hstep, hu⟩
    · exact ⟨new, hchain.tail hstep, .refl, by omega⟩

def second : BitVec 64 := 1000000000

/-- The time that `restartVM` computes.  The shift and the product are those of a
`time.Duration`. -/
def expBackoff (restartCount : Int) : BitVec 64 :=
  let backoff := (1#64 <<< (BitVec.ofInt 64 restartCount).toNat) * second
  if (30 * second).slt backoff then 30 * second else backoff

def backoff : Backend → Obj → BitVec 64
  | .qemu, old => expBackoff old.restartCount
  | .firecracker, old => expBackoff old.restartCount

/-- How long `time.Sleep` waits, in nanoseconds: for a time below zero not at all. -/
def delay (b : Backend) (old : Obj) : Int := max 0 (backoff b old).toInt

theorem delay_eq (b : Backend) (old : Obj) :
    delay b old = max 0 (expBackoff old.restartCount).toInt := by
  cases b <;> rfl

theorem expBackoff_of_le {n : Nat} (h : n ≤ 33) :
    (expBackoff n).toInt = min (2 ^ n) 30 * 1000000000 := by
  interval_cases n <;> decide +kernel

theorem expBackoff_of_wrap : (expBackoff 34).toInt < 0 := by decide +kernel

theorem delay_of_le (b : Backend) {u : Obj} {n : Nat} (hu : u.restartCount = n) (h : n ≤ 33) :
    delay b u = min (2 ^ n) 30 * 1000000000 := by
  have hpos : (1 : Int) ≤ 2 ^ n := by exact_mod_cast Nat.one_le_two_pow
  rw [delay_eq, hu, expBackoff_of_le h]
  omega

theorem delay_of_wrap (b : Backend) {u : Obj} (hu : u.restartCount = 34) : delay b u = 0 := by
  have hwrap := expBackoff_of_wrap
  rw [delay_eq, hu]
  omega

theorem exists_count_eq {first u : Obj} (hfirst : first.restartCount = 0) (h : Chain first u) :
    ∃ n : Nat, u.restartCount = n := by
  have hle := restartCount_le h
  rw [hfirst] at hle
  exact ⟨u.restartCount.toNat, (Int.toNat_of_nonneg hle).symm⟩

/-- Along a chain of automatic restarts the waits are the doubled seconds up to half a
minute, are never below a second and never get shorter, if and only if there were at
most 33 restarts. -/
theorem delay_iff (b : Backend) {first w : Obj} (hfirst : first.restartCount = 0)
    (h : Chain first w) :
    (∀ u, Chain first u → Chain u w →
      (∃ n : Nat, u.restartCount = n ∧ delay b u = min (2 ^ n) 30 * 1000000000) ∧
      1000000000 ≤ delay b u ∧ ∀ u', Chain u u' → Chain u' w → delay b u ≤ delay b u') ↔
      w.restartCount ≤ 33 := by
  constructor
  · intro hall
    by_contra hmany
    obtain ⟨u, hu, huw, hcount⟩ := exists_count h (by omega : first.restartCount ≤ 34) (by omega)
    have hwait := (hall u hu huw).2.1
    rw [delay_of_wrap b hcount] at hwait
    omega
  · intro hfew u hu huw
    obtain ⟨n, hn⟩ := exists_count_eq hfirst hu
    have hle := restartCount_le huw
    have hdelay := delay_of_le b hn (by omega)
    have hpos : (1 : Int) ≤ 2 ^ n := by exact_mod_cast Nat.one_le_two_pow
    refine ⟨⟨n, hn, hdelay⟩, by omega, fun u' huu' hu'w => ?_⟩
    obtain ⟨n', hn'⟩ := exists_count_eq hfirst (hu.trans huu')
    have hle' := restartCount_le hu'w
    have hnn' := restartCount_le huu'
    have hdelay' := delay_of_le b hn' (by omega)
    have hpow : (2 : Int) ^ n ≤ 2 ^ n' := by
      exact_mod_cast Nat.pow_le_pow_right (by omega) (by omega : n ≤ n')
    omega

def always : Obj := Obj.new "web".toList ⟨"web".toList, .always, 0⟩

/-- The VM after some restarts. -/
def restarted : Nat → Obj
  | 0 => always
  | n + 1 => replacement (restarted n) "web".toList

theorem restarted_cfg (n : Nat) : (restarted n).cfg = always.cfg := by
  induction n with
  | zero => rfl
  | succ n ih => exact ih

theorem chain_restarted (n : Nat) : Chain always (restarted n) := by
  induction n with
  | zero => exact .refl
  | succ n ih =>
    refine ih.tail ⟨true, _, ?_, rfl⟩
    rw [shouldRestart, restarted_cfg]
    rfl

theorem delay_iff_twice :
    delay .qemu (restarted 1) ≤ delay .qemu (restarted 2) ∧ delay .qemu
      (restarted 2) = 4000000000 := by
  have hall := (delay_iff .qemu (by rfl : always.restartCount = 0) (chain_restarted 2)).mpr
    (by decide)
  have hlast : Chain (restarted 1) (restarted 2) :=
    .single ⟨true, _, by decide, rfl⟩
  obtain ⟨-, -, hmono⟩ := hall (restarted 1) (chain_restarted 1) hlast
  obtain ⟨⟨n, hn, hdelay⟩, -, -⟩ := hall (restarted 2) (chain_restarted 2) .refl
  have htwo : n = 2 := by
    have hcount : (restarted 2).restartCount = 2 := by decide
    omega
  subst htwo
  exact ⟨hmono _ hlast .refl, hdelay⟩

/-- After 34 restarts there is no wait any more. -/
theorem no_wait :
    Chain always (restarted 34) ∧ (restarted 34).restartCount = 34 ∧
      delay .qemu (restarted 34) = 0 ∧ delay .firecracker (restarted 34) = 0 :=
  ⟨chain_restarted 34,
    by decide, delay_of_wrap .qemu (by decide), delay_of_wrap .firecracker (by decide)⟩

end Jerboa.Vm.Backoff
