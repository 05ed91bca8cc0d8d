import Jerboa.Boot.Memory
import Mathlib.Data.List.Lex

/-!
# The version gate

`CheckDaemonCompat` of package `release` compares the version of a CLI with the oldest one
that a daemon speaks to.  `IsReleaseVersion` says which texts are versions; `parseSemver`
makes three numbers of any text, part by part.
-/

namespace Jerboa.Release

open List Lib Lib.Delimited Net.Address Boot

/-- `strings.SplitN` at dots, into no more than `n + 1` parts. -/
def splitN : Nat → Text → List Text
  | 0, s => [s]
  | n + 1, s =>
    match cut '.' s with
    | none => [s]
    | some (first, rest) => first :: splitN n rest

def notSign (c : Char) : Bool := c ≠ '-' && c ≠ '+'

/-- The text up to the first of `-` and `+`. -/
def dropSuffix (s : Text) : Text := s.takeWhile notSign

def trimV : Text → Text
  | 'v' :: rest => rest
  | s => s

def isReleaseVersion (v : Text) : Bool :=
  let parts := splitN 2 (trimV (trimSpace v))
  2 ≤ parts.length && parts.all fun p => dropSuffix p ≠ [] && (atoi (dropSuffix p)).isSome

/-- The number that `strconv.Atoi` returns, also with an error: one that is too large
becomes the largest. -/
def atoiValue (s : Text) : Int :=
  match atoi s with
  | some n => n
  | none =>
    if (sign s).2 = [] ∨ (sign s).2.all Char.isDigit = false then 0
    else if (sign s).1 then -2 ^ 63 else 2 ^ 63 - 1

/-- The parts that `parseSemver` converts. -/
def parts (s : Text) : List Text := splitN 2 (dropSuffix (trimV (trimSpace s)))

def parseSemver (s : Text) : List Int :=
  (parts s).map atoiValue ++ List.replicate (3 - (parts s).length) 0

def gt : List Int → List Int → Bool
  | x :: xs, y :: ys => if x ≠ y then y < x else gt xs ys
  | _, _ => false

def semverGT (a b : Text) : Bool := gt (parseSemver a) (parseSemver b)

def isNewer (localVersion remote : Text) : Bool := semverGT remote localVersion

structure Component where
  minCLI : Text

structure Manifest where
  component : Text → Option Component

structure CompatError where
  cliVersion : Text
  minCLI : Text

def componentDaemon : Text := "daemon".toList

def Manifest.checkDaemonCompat (m : Manifest) (cliVersion : Text) : Except CompatError Unit :=
  match m.component componentDaemon with
  | none => .ok ()
  | some d =>
    if d.minCLI = [] then .ok ()
    else if isNewer cliVersion d.minCLI then .error ⟨cliVersion, d.minCLI⟩
    else .ok ()

/-- The numbers of a version.  A part that is missing is zero. -/
def triple (s : Text) : List Int :=
  (parts s).map (fun p => (decimalValue p : Int)) ++ List.replicate (3 - (parts s).length) 0

/-- Only a version that is no older than `min` is accepted, and what is no version is 0.0.0. -/
def FailsClosed (m : Manifest) (cliVersion min : Text) : Prop :=
  (m.checkDaemonCompat cliVersion = .ok () →
    isReleaseVersion cliVersion = true ∧ triple min ≤ triple cliVersion) ∧
  (isReleaseVersion cliVersion = false → parseSemver cliVersion = [0, 0, 0])

/-- A number above zero. -/
def Positive (p : Text) : Prop := p ≠ [] ∧ p.all Char.isDigit = true ∧ decimalValue p ≠ 0

/-! ## Parts -/

theorem splitN_takeWhile {n : Nat} {s p : Text} {keep : Char → Bool} (hdot : keep '.' = true)
    (h : p ∈ splitN n (s.takeWhile keep)) : ∃ q ∈ splitN n s, p = q.takeWhile keep := by
  induction n generalizing s p with
  | zero => exact ⟨s, mem_singleton_self s, mem_singleton.mp h⟩
  | succ n ih =>
    rw [splitN] at h ⊢
    cases hcut : cut '.' s with
    | none =>
      have hnot : '.' ∉ s.takeWhile keep := fun hin => cut_eq_none.mp hcut (takeWhile_subset _ hin)
      rw [cut_eq_none.mpr hnot] at h
      exact ⟨s, mem_singleton_self s, mem_singleton.mp h⟩
    | some r =>
      obtain ⟨a, rest⟩ := r
      obtain ⟨rfl, ha⟩ := eq_of_cut hcut
      by_cases hall : ∀ c ∈ a, keep c = true
      · rw [takeWhile_append_of_pos hall, takeWhile_cons_of_pos hdot, cut_append ha] at h
        rcases mem_cons.mp h with rfl | h
        · exact ⟨p, mem_cons_self, (takeWhile_eq_self_iff.mpr hall).symm⟩
        · obtain ⟨q, hq, hp⟩ := ih h
          exact ⟨q, mem_cons_of_mem _ hq, hp⟩
      · have hstop : (a ++ '.' :: rest).takeWhile keep = a.takeWhile keep := by
          rw [takeWhile_append, if_neg]
          intro hlen
          have hle : a.takeWhile keep <+: a := takeWhile_prefix keep
          have hself := hle.eq_of_length hlen
          exact hall (takeWhile_eq_self_iff.mp hself)
        have hnot : '.' ∉ a.takeWhile keep := fun hin => ha (takeWhile_subset _ hin)
        rw [hstop, cut_eq_none.mpr hnot] at h
        exact ⟨a, mem_cons_self, mem_singleton.mp h⟩

variable {s p : Text}

theorem length_splitN (n : Nat) (s : Text) : (splitN n s).length ≤ n + 1 := by
  induction n generalizing s with
  | zero => exact le_refl 1
  | succ n ih =>
    rw [splitN]
    split
    · exact Nat.le_add_left 1 (n + 1)
    · exact Nat.succ_le_succ (ih _)

theorem mem_parts (h : p ∈ parts s) : ∃ q ∈ splitN 2 (trimV (trimSpace s)), p = dropSuffix q :=
  splitN_takeWhile (by decide) h

theorem notSign_of_mem_parts (h : p ∈ parts s) : ∀ c ∈ p, notSign c = true := by
  obtain ⟨q, -, rfl⟩ := mem_parts h
  exact fun c hc => mem_takeWhile_imp hc

theorem sign_of_notSign (h : ∀ c ∈ p, notSign c = true) : sign p = (false, p) := by
  unfold sign
  split
  · exact absurd (h '-' mem_cons_self) (by decide)
  · exact absurd (h '+' mem_cons_self) (by decide)
  · rfl

theorem atoi_of_notSign (h : ∀ c ∈ p, notSign c = true) :
    atoi p = if p = [] ∨ p.all Char.isDigit = false then none
      else if decimalValue p < 2 ^ 63 then some (decimalValue p : Int) else none := by
  unfold atoi
  split
  next negative digits heq =>
    cases heq.symm.trans (sign_of_notSign h)
    rfl

theorem atoiValue_part (h : p ∈ parts s) :
    atoiValue p =
      if p = [] ∨ p.all Char.isDigit = false then 0 else min (decimalValue p : Int)
        (2 ^ 63 - 1) := by
  have hsign := notSign_of_mem_parts h
  rw [atoiValue, atoi_of_notSign hsign, sign_of_notSign hsign]
  by_cases hdigits : p = [] ∨ p.all Char.isDigit = false
  · simp only [if_pos hdigits]
  · by_cases hfits : decimalValue p < 2 ^ 63
    · rw [min_eq_left (by omega)]
      simp only [if_neg hdigits, if_pos hfits]
    · rw [min_eq_right (by omega)]
      simp only [if_neg hdigits, if_neg hfits, Bool.false_eq_true, if_false]

theorem atoiValue_part_nonneg (h : p ∈ parts s) :
    0 ≤ atoiValue p ∧ (atoiValue p = 0 ↔ ¬ Positive p) := by
  rw [atoiValue_part h, Positive]
  split_ifs with hdigits
  · refine ⟨le_refl 0, fun _ hpos => ?_, fun _ => rfl⟩
    exact hdigits.elim hpos.1 fun hall => Bool.false_ne_true (hall.symm.trans hpos.2.1)
  · rw [not_or, Bool.not_eq_false] at hdigits
    refine ⟨by omega, fun hzero hpos => hpos.2.2 (by omega), fun hpos => ?_⟩
    have hnot : decimalValue p = 0 := not_not.mp fun hne => hpos ⟨hdigits.1, hdigits.2, hne⟩
    rw [hnot]
    rfl

theorem forall_mem_parseSemver {x : Int} (h : x ∈ parseSemver s) : 0 ≤ x := by
  rcases mem_append.mp h with h | h
  · obtain ⟨p, hp, rfl⟩ := mem_map.mp h
    exact (atoiValue_part_nonneg hp).1
  · rw [eq_of_mem_replicate h]

theorem parseSemver_eq_zero : parseSemver s = [0, 0, 0] ↔ ∀ p ∈ parts s, ¬ Positive p := by
  have hlen := length_splitN 2 (dropSuffix (trimV (trimSpace s)))
  change (parts s).length ≤ 3 at hlen
  have hzero : ∀ p ∈ parts s, (¬ Positive p ↔ atoiValue p = 0) := fun p hp =>
    (atoiValue_part_nonneg hp).2.symm
  have hthree : [0, 0, 0] = List.replicate (parts s).length (0 : Int) ++
      List.replicate (3 - (parts s).length) 0 := by
    rw [← replicate_add, Nat.add_sub_cancel' hlen]
    rfl
  rw [forall₂_congr hzero, parseSemver, hthree, append_cancel_right_eq, eq_replicate_iff,
    length_map, eq_self, true_and, forall_mem_map]

/-! ## Versions -/

/-- The parts of a version are numbers that fit. -/
theorem parseSemver_of_release (h : isReleaseVersion s = true) : parseSemver s = triple s := by
  rw [parseSemver, triple, append_cancel_right_eq]
  apply map_congr_left
  intro p hp
  have hatoi := atoi_of_notSign (notSign_of_mem_parts hp)
  obtain ⟨q, hq, rfl⟩ := mem_parts hp
  rw [isReleaseVersion, Bool.and_eq_true, all_eq_true] at h
  have hpart := h.2 q hq
  rw [Bool.and_eq_true, hatoi] at hpart
  rw [atoiValue, hatoi]
  split at hpart
  · cases hpart.2
  · split at hpart
    · next hdigits hfits => rw [if_neg hdigits, if_pos hfits]
    · cases hpart.2

theorem gt_iff {xs ys : List Int} (h : xs.length = ys.length) : gt xs ys = true ↔ ys < xs := by
  induction xs generalizing ys with
  | nil =>
    cases ys with
    | nil => simp [gt]
    | cons => cases h
  | cons x xs ih =>
    cases ys with
    | nil => cases h
    | cons =>
      rw [gt, cons_lt_cons_iff, ← ih (Nat.succ.inj h)]
      split_ifs with hne
      · simp [Ne.symm hne]
      · simp [not_not.mp hne]

theorem length_parseSemver (s : Text) : (parseSemver s).length = 3 := by
  have hlen := length_splitN 2 (dropSuffix (trimV (trimSpace s)))
  change (parts s).length ≤ 3 at hlen
  rw [parseSemver, length_append, length_map, length_replicate]
  omega

theorem zero_lt_parseSemver : [0, 0, 0] < parseSemver s ↔ ∃ p ∈ parts s, Positive p := by
  have hzero := parseSemver_eq_zero (s := s)
  have hlen := length_parseSemver s
  have hnonneg : ∀ x ∈ parseSemver s, 0 ≤ x := fun x => forall_mem_parseSemver
  generalize parseSemver s = xs at hzero hlen hnonneg
  rw [← not_iff_not, not_exists]
  simp only [not_and, ← hzero]
  obtain ⟨x, y, z, rfl⟩ := length_eq_three.mp hlen
  obtain ⟨hx, hy, hz⟩ : 0 ≤ x ∧ 0 ≤ y ∧ 0 ≤ z := by simpa using hnonneg
  simp only [cons_lt_cons_iff, List.cons.injEq, not_lt_nil, and_false, or_false, and_true]
  omega

variable {m : Manifest} {d : Component} {cliVersion : Text}

theorem checkDaemonCompat_eq_ok (hd : m.component componentDaemon = some d)
    (hmin : isReleaseVersion d.minCLI = true) :
    m.checkDaemonCompat cliVersion = .ok () ↔ ¬ parseSemver cliVersion < parseSemver d.minCLI := by
  have hne : d.minCLI ≠ [] := fun hnil => by rw [hnil] at hmin; cases hmin
  rw [Manifest.checkDaemonCompat, hd, ← gt_iff (by rw [length_parseSemver, length_parseSemver])]
  change (if d.minCLI = [] then _ else if gt (parseSemver d.minCLI) (parseSemver cliVersion) then _
    else _) = _ ↔ _
  rw [if_neg hne, ite_error_eq_ok]
  simp

/-- The gate fails closed for a version, if and only if it is one, or none of its parts is a
number above zero but one of the oldest version's is. -/
theorem checkDaemonCompat_fails_closed_iff (m : Manifest) (d : Component) (cliVersion : Text)
    (hd : m.component componentDaemon = some d) (hmin : isReleaseVersion d.minCLI = true) :
    FailsClosed m cliVersion d.minCLI ↔
      isReleaseVersion cliVersion = true ∨
        (∀ p ∈ parts cliVersion, ¬ Positive p) ∧ ∃ p ∈ parts d.minCLI, Positive p := by
  rw [FailsClosed, checkDaemonCompat_eq_ok hd hmin]
  cases hcli : isReleaseVersion cliVersion with
  | true =>
    rw [← parseSemver_of_release hcli, ← parseSemver_of_release hmin]
    simp
  | false =>
    rw [parseSemver_eq_zero, ← zero_lt_parseSemver]
    constructor
    · rintro ⟨hnot, hzero⟩
      refine .inr ⟨hzero rfl, not_not.mp fun hlt => ?_⟩
      rw [← parseSemver_eq_zero.mpr (hzero rfl)] at hlt
      exact Bool.false_ne_true (hnot hlt).1
    · rintro (h | ⟨hzero, hlt⟩)
      · cases h
      · rw [parseSemver_eq_zero.mpr hzero]
        exact ⟨fun hnot => absurd hlt hnot, fun _ => hzero⟩

def requiring (minCLI : Text) : Manifest := ⟨fun _ => some ⟨minCLI⟩⟩

theorem checkDaemonCompat_fails_closed_release :
    isReleaseVersion "v0.4.0".toList = true ∧
      FailsClosed (requiring "v0.4.0".toList) "0.10-rc1".toList "v0.4.0".toList :=
  ⟨by decide +kernel,
    (checkDaemonCompat_fails_closed_iff (requiring "v0.4.0".toList) ⟨"v0.4.0".toList⟩
      "0.10-rc1".toList rfl (by decide +kernel)).mpr (.inl (by decide +kernel))⟩

/-- A commit whose first seven digits are decimal passes for version 1234567, and so does a
number that does not fit. -/
theorem digits_accepted :
    isReleaseVersion "v0.4.0".toList = true ∧ isReleaseVersion "1234567".toList = false ∧
      (requiring "v0.4.0".toList).checkDaemonCompat "1234567".toList = .ok () ∧
      parseSemver "99999999999999999999.x".toList = [2 ^ 63 - 1, 0, 0] ∧
      ¬ FailsClosed (requiring "v0.4.0".toList) "1234567".toList "v0.4.0".toList := by
  have hok : (requiring "v0.4.0".toList).checkDaemonCompat "1234567".toList = .ok () := by rfl
  exact ⟨by decide +kernel, by decide +kernel, hok, by decide +kernel,
    fun h => absurd (h.1 hok).1 (by decide +kernel)⟩

end Jerboa.Release
