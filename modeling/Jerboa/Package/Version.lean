import Jerboa.Release.Semver
import Mathlib.Data.Char
import Mathlib.Data.Prod.Lex
import Mathlib.Data.Sum.Order

/-!
# The order of package versions

`CompareVersions` splits a version into runs of digits and of other characters and compares
them one by one; `rankByVersion` sorts the packages that match a request by it.  A run is a
number or a text, so the order is that of a key: the runs of the release, then those of the
pre-release, where none is above any.
-/

namespace Jerboa.Package.Version

open List Lib.Delimited Net.Address Release

def splitPrerelease (v : Text) : Text × Text := (cut '-' v).getD (v, [])

/-- What the loop of `versionRuns` holds: the runs so far, the one it is in, and whether that
is one of digits. -/
structure Runs where
  runs : List Text
  cur : Text
  digit : Bool

def Runs.flush (s : Runs) : Runs :=
  if s.cur = [] then s else { s with runs := s.runs ++ [s.cur], cur := [] }

def Runs.write (s : Runs) (r : Char) (digit : Bool) : Runs :=
  { s with cur := s.cur ++ [r], digit := digit }

def Runs.step (s : Runs) (r : Char) : Runs :=
  if r.isDigit then (if s.digit then s else s.flush).write r true
  else if r = '.' ∨ r = '_' ∨ r = '+' then { s.flush with digit := false }
  else (if s.digit then s.flush else s).write r false

def versionRuns (v : Text) : List Text := (v.foldl Runs.step ⟨[], [], false⟩).flush.runs

/-- `strconv.ParseUint(s, 10, 64)`, without its error. -/
def parseUint (s : Text) : Option Nat :=
  if s = [] ∨ s.all Char.isDigit = false then none
  else if decimalValue s < 2 ^ 64 then some (decimalValue s) else none

/-- `strings.Compare`. -/
def compareText (a b : Text) : Int := if a = b then 0 else if a < b then -1 else 1

def compareRuns : List Text → List Text → Int
  | x :: a, y :: b =>
    match parseUint x, parseUint y with
    | some na, some nb => if na ≠ nb then if na < nb then -1 else 1 else compareRuns a b
    | some _, none => 1
    | none, some _ => -1
    | none, none => if compareText x y ≠ 0 then compareText x y else compareRuns a b
  | a, b => a.length - b.length

def compareVersions (a b : Text) : Int :=
  let (ra, pa) := splitPrerelease (trimV a)
  let (rb, pb) := splitPrerelease (trimV b)
  if compareRuns (versionRuns ra) (versionRuns rb) ≠ 0 then
    compareRuns (versionRuns ra) (versionRuns rb)
  else if pa = pb then 0
  else if pa = [] then 1
  else if pb = [] then -1
  else compareRuns (versionRuns pa) (versionRuns pb)

def floating (want : Text) : Bool := want = [] ∨ want = "latest".toList

def versionMatch (want version : Text) : Nat :=
  if floating want then 1
  else if trimV want = trimV version then 2
  else if trimV want ++ ['.'] <+: trimV version ∨ trimV want ++ ['-'] <+: trimV version then 1
  else 0

def isPrerelease (v : Text) : Bool := (splitPrerelease (trimV v)).2 ≠ []

/-- The order of the sort, on the versions and their scores. -/
def less (want : Text) (i j : Text × Nat) : Bool :=
  if i.2 ≠ j.2 then j.2 < i.2
  else if floating want && (isPrerelease i.1 ≠ isPrerelease j.1) then !isPrerelease i.1
  else 0 < compareVersions i.1 j.1

section Rank

variable {Pkg : Type*} (version : Pkg → Text)

/-- The packages that match the request, with their scores. -/
def ranked (pkgs : List Pkg) (want : Text) (keep : Option (Pkg → Bool)) : List (Pkg × Nat) :=
  pkgs.filterMap fun p =>
    if keep.any (fun keep => !keep p) then none
    else if 0 < versionMatch want (version p) then some (p, versionMatch want (version p)) else none

def rankByVersion (pkgs : List Pkg) (want : Text) (keep : Option (Pkg → Bool)) : List Pkg :=
  ((ranked version pkgs want keep).mergeSort
    fun i j => !less want (version j.1, j.2) (version i.1, i.2)).map Prod.fst

end Rank

/-! ## Keys -/

/-- A text is below any number. -/
abbrev RunKey := Lex (Text ⊕ Nat)

def runKey (x : Text) : RunKey :=
  match parseUint x with
  | some n => toLex (.inr n)
  | none => toLex (.inl x)

abbrev VersionKey := Lex (List RunKey × WithTop (List RunKey))

def preKey (pre : Text) : WithTop (List RunKey) :=
  if pre = [] then ⊤ else ((versionRuns pre).map runKey : List RunKey)

def versionKey (v : Text) : VersionKey :=
  toLex ((versionRuns (splitPrerelease (trimV v)).1).map runKey,
    preKey (splitPrerelease (trimV v)).2)

theorem compareRuns_cons (x y : Text) (a b : List Text) :
    compareRuns (x :: a) (y :: b) =
      if runKey x = runKey y then compareRuns a b else if runKey x < runKey y then -1 else 1 := by
  rw [compareRuns, runKey, runKey]
  cases parseUint x with
  | some =>
    cases parseUint y with
    | some => simp [ite_not]
    | none => simp
  | none =>
    cases parseUint y with
    | some => simp
    | none =>
      rw [compareText]
      by_cases hxy : x = y
      · simp [hxy]
      · by_cases hlt : x < y
        · simp [hxy, hlt]
        · simp [hxy, hlt]

theorem compareRuns_neg (a b : List Text) : compareRuns b a = -compareRuns a b := by
  induction a generalizing b with
  | nil => cases b <;> simp [compareRuns]
  | cons x a ih =>
    cases b with
    | nil => simp [compareRuns]
    | cons y b =>
      rw [compareRuns_cons, compareRuns_cons, ih b]
      rcases lt_trichotomy (runKey x) (runKey y) with h | h | h
      · simp [h, h.ne, h.ne', h.not_gt]
      · simp [h]
      · simp [h, h.ne, h.ne', h.not_gt]

theorem compareRuns_lt_zero (a b : List Text) :
    compareRuns a b < 0 ↔ a.map runKey < b.map runKey := by
  induction a generalizing b with
  | nil =>
    cases b with
    | nil => simp [compareRuns]
    | cons => simp [compareRuns]; omega
  | cons x a ih =>
    cases b with
    | nil => simp [compareRuns]; omega
    | cons y b =>
      rw [compareRuns_cons, map_cons, map_cons, cons_lt_cons_iff, ← ih b]
      rcases lt_trichotomy (runKey x) (runKey y) with h | h | h
      · simp [h, h.ne]
      · simp [h]
      · simp [h.ne', h.not_gt]

theorem compareRuns_eq_zero (a b : List Text) :
    compareRuns a b = 0 ↔ a.map runKey = b.map runKey := by
  have hgt := compareRuns_lt_zero b a
  rw [compareRuns_neg, neg_lt_zero] at hgt
  rw [← not_iff_not, ← ne_eq, ← ne_eq, ne_iff_lt_or_gt, ne_iff_lt_or_gt, compareRuns_lt_zero, ← hgt]

theorem compareVersions_neg (a b : Text) : compareVersions b a = -compareVersions a b := by
  simp only [compareVersions]
  generalize splitPrerelease (trimV a) = p
  generalize splitPrerelease (trimV b) = q
  rw [compareRuns_neg (versionRuns p.1), compareRuns_neg (versionRuns p.2)]
  by_cases hc : compareRuns (versionRuns p.1) (versionRuns q.1) = 0
  · rw [hc, neg_zero, if_neg (not_not.mpr rfl), if_neg (not_not.mpr rfl)]
    by_cases hpq : p.2 = q.2
    · rw [if_pos hpq, if_pos hpq.symm, neg_zero]
    · rw [if_neg hpq, if_neg (Ne.symm hpq)]
      by_cases hp : p.2 = []
      · rw [if_neg fun hq => hpq (hp.trans hq.symm), if_pos hp, if_pos hp]
      · rw [if_neg hp, if_neg hp]
        split_ifs
        · rfl
        · rfl
  · rw [if_pos hc, if_pos (neg_ne_zero.mpr hc)]

/-- Comparing is comparing the keys. -/
theorem compareVersions_lt_zero (a b : Text) :
    compareVersions a b < 0 ↔ versionKey a < versionKey b := by
  simp only [compareVersions, versionKey, Prod.Lex.toLex_lt_toLex]
  generalize splitPrerelease (trimV a) = p
  generalize splitPrerelease (trimV b) = q
  rw [← compareRuns_lt_zero, ← compareRuns_eq_zero]
  by_cases hc : compareRuns (versionRuns p.1) (versionRuns q.1) = 0
  · rw [if_neg (not_not.mpr hc), hc, preKey, preKey]
    by_cases hp : p.2 = []
    · by_cases hq : q.2 = []
      · simp [hp, hq]
      · simp [hp, hq, Ne.symm hq]
    · by_cases hq : q.2 = []
      · simp [hp, hq]
      · by_cases hpq : p.2 = q.2
        · simp [hq, hpq]
        · simp [hp, hq, hpq, compareRuns_lt_zero]
  · simp [hc]

theorem compareVersions_pos (a b : Text) :
    0 < compareVersions a b ↔ versionKey b < versionKey a := by
  rw [← compareVersions_lt_zero b a, compareVersions_neg a b, neg_lt_zero]

theorem compareVersions_nonpos (a b : Text) :
    compareVersions a b ≤ 0 ↔ versionKey a ≤ versionKey b := by
  rw [← not_lt, compareVersions_pos, not_lt]

/-! ## Dotted numbers -/

def Numeric (as : List Text) : Prop := ∀ x ∈ as, x ≠ [] ∧ x.all Char.isDigit = true

def dotted (as : List Text) : Text := ['.'].intercalate as

def nats (as : List Text) : List Nat := as.map decimalValue

/-- The sign of `c` is that of the comparison of the numbers. -/
def Agrees (c : Int) (a b : List Nat) : Prop := (c < 0 ↔ a < b) ∧ (0 < c ↔ b < a)

def Fits (x : Text) : Prop := decimalValue x < 2 ^ 64
deriving Decidable

/-- Where two versions first differ, both components are below `2^64`, or neither is and
their texts are in the order of the numbers. -/
def Comparable : List Text → List Text → Prop
  | x :: a, y :: b =>
    if Fits x ∧ Fits y then decimalValue x = decimalValue y → Comparable a b
    else if x = y then Comparable a b
    else (¬ Fits x ∧ ¬ Fits y) ∧
      (x < y ∧ nats (x :: a) < nats (y :: b) ∨ y < x ∧ nats (y :: b) < nats (x :: a))
  | _, _ => True

/-- Components that face each other both fit, or neither does and they are equally long. -/
def Aligned (as bs : List Text) : Prop :=
  ∀ p ∈ as.zip bs, (Fits p.1 ↔ Fits p.2) ∧ (¬ Fits p.1 → p.1.length = p.2.length)

theorem foldl_digits (runs : List Text) (cur ds : Text) (h : ds.all Char.isDigit = true) :
    ds.foldl Runs.step ⟨runs, cur, true⟩ = ⟨runs, cur ++ ds, true⟩ := by
  induction ds generalizing cur with
  | nil => simp
  | cons d ds ih =>
    rw [all_cons, Bool.and_eq_true] at h
    rw [foldl_cons, Runs.step, if_pos h.1, if_pos rfl]
    exact (ih (cur ++ [d]) h.2).trans (by simp)

theorem foldl_component (runs : List Text) (x : Text) (hx : x ≠ [] ∧ x.all Char.isDigit = true) :
    x.foldl Runs.step ⟨runs, [], false⟩ = ⟨runs, x, true⟩ := by
  cases x with
  | nil => exact absurd rfl hx.1
  | cons d ds =>
    have hall := hx.2
    rw [all_cons, Bool.and_eq_true] at hall
    rw [foldl_cons, Runs.step, if_pos hall.1]
    exact foldl_digits runs [d] ds hall.2

theorem foldl_components (runs rest : List Text) (first : Text) (hfirst : first ≠ [])
    (hrest : Numeric rest) :
    ((rest.flatMap ('.' :: ·)).foldl Runs.step ⟨runs, first, true⟩).flush.runs =
      runs ++ first :: rest := by
  induction rest generalizing runs first with
  | nil => simp [Runs.flush, hfirst]
  | cons x rest ih =>
    have hx := hrest x mem_cons_self
    have hdot : Runs.step ⟨runs, first, true⟩ '.' = ⟨runs ++ [first], [], false⟩ := by
      simp [Runs.step, Runs.flush, hfirst]
    rw [flatMap_cons, foldl_append, foldl_cons, hdot, foldl_component _ x hx,
      ih _ x hx.1 fun y hy => hrest y (mem_cons_of_mem _ hy)]
    simp

theorem versionRuns_dotted {as : List Text} (h : Numeric as) : versionRuns (dotted as) = as := by
  cases as with
  | nil => rfl
  | cons x =>
    have hx := h x mem_cons_self
    rw [versionRuns, dotted, intercalate_cons, foldl_append, foldl_component _ x hx,
      foldl_components _ _ x hx.1 fun y hy => h y (mem_cons_of_mem _ hy)]
    rfl

theorem digit_or_dot {as : List Text} (h : Numeric as) {c : Char} (hc : c ∈ dotted as) :
    c = '.' ∨ c.isDigit = true := by
  rcases mem_intercalate hc with hc | ⟨x, hx, hc⟩
  · exact .inl hc
  · exact .inr (all_eq_true.mp (h x hx).2 c hc)

theorem splitPrerelease_dotted {as : List Text} (h : Numeric as) :
    splitPrerelease (trimV (dotted as)) = (dotted as, []) := by
  have htrim : trimV (dotted as) = dotted as := by
    unfold trimV
    split
    · next heq =>
      have hv := digit_or_dot h (c := 'v') (by rw [heq]; exact mem_cons_self)
      exact absurd hv (by decide)
    · rfl
  have hdash : '-' ∉ dotted as := fun hmem => absurd (digit_or_dot h hmem) (by decide)
  rw [htrim, splitPrerelease, cut_eq_none.mpr hdash]
  rfl

theorem compareVersions_dotted {as bs : List Text} (ha : Numeric as) (hb : Numeric bs) :
    compareVersions (dotted as) (dotted bs) = compareRuns as bs := by
  rw [compareVersions, splitPrerelease_dotted ha, splitPrerelease_dotted hb]
  simp only [versionRuns_dotted ha, versionRuns_dotted hb]
  by_cases hc : compareRuns as bs = 0
  · rw [hc]
    rfl
  · rw [if_pos hc]

theorem parseUint_component {x : Text} (hx : x ≠ [] ∧ x.all Char.isDigit = true) :
    parseUint x = if Fits x then some (decimalValue x) else none := by
  rw [parseUint, if_neg]
  · rfl
  · rw [not_or, Bool.not_eq_false]
    exact hx

theorem agrees_compareRuns_iff {as bs : List Text} (ha : Numeric as) (hb : Numeric bs) :
    Agrees (compareRuns as bs) (nats as) (nats bs) ↔ Comparable as bs := by
  induction as generalizing bs with
  | nil =>
    cases bs with
    | nil => simp [Agrees, compareRuns, nats, Comparable]
    | cons => simp [Agrees, compareRuns, nats, Comparable]; omega
  | cons x as ih =>
    cases bs with
    | nil => simp [Agrees, compareRuns, nats, Comparable]; omega
    | cons y bs =>
      have hx := parseUint_component (ha x mem_cons_self)
      have hy := parseUint_component (hb y mem_cons_self)
      have hrest := ih (fun z hz => ha z (mem_cons_of_mem _ hz))
        (fun z hz => hb z (mem_cons_of_mem _ hz))
      rw [compareRuns, hx, hy, Comparable]
      by_cases hfx : Fits x
      · by_cases hfy : Fits y
        · simp only [hfx, hfy, and_self, if_true, ← hrest]
          rcases lt_trichotomy (decimalValue x) (decimalValue y) with h | h | h
          · simp [Agrees, nats, cons_lt_cons_iff, h, h.ne, h.ne', h.not_gt]
          · simp [Agrees, nats, h]
          · simp [Agrees, nats, cons_lt_cons_iff, h, h.ne, h.ne', h.not_gt]
        · have hlt : decimalValue x < decimalValue y := lt_of_lt_of_le hfx (not_lt.mp hfy)
          have hxy : x ≠ y := fun heq => hlt.ne (congrArg decimalValue heq)
          simp [Agrees, nats, cons_lt_cons_iff, hfx, hfy, hxy, hlt]
      · by_cases hfy : Fits y
        · have hlt : decimalValue y < decimalValue x := lt_of_lt_of_le hfy (not_lt.mp hfx)
          have hxy : x ≠ y := fun heq => hlt.ne' (congrArg decimalValue heq)
          simp [Agrees, nats, cons_lt_cons_iff, hfx, hfy, hxy, hlt]
        · simp only [hfx, hfy, and_self, if_false, ← hrest, compareText, not_false_eq_true,
            true_and]
          rcases lt_trichotomy x y with h | h | h
          · have hle : nats (x :: as) < nats (y :: bs) → nats (x :: as) ≤ nats (y :: bs) := le_of_lt
            simpa [Agrees, h, h.ne, h.not_gt] using hle
          · simp [Agrees, nats, h]
          · have hle : nats (y :: bs) < nats (x :: as) → nats (y :: bs) ≤ nats (x :: as) := le_of_lt
            simpa [Agrees, h, h.ne', h.not_gt] using hle

/-- Of two texts of digits that are equally long, the lesser is the lesser number. -/
theorem foldl_digits_lt {x y : Text} (hx : x.all Char.isDigit = true)
    (hy : y.all Char.isDigit = true) (hlen : x.length = y.length) (m n : Nat)
    (h : m < n ∨ m = n ∧ x < y) :
    x.foldl (fun acc c => acc * 10 + (c.toNat - '0'.toNat)) m <
      y.foldl (fun acc c => acc * 10 + (c.toNat - '0'.toNat)) n := by
  induction x generalizing y m n with
  | nil =>
    cases length_eq_zero_iff.mp hlen.symm
    simpa using h
  | cons c x ih =>
    obtain ⟨d, y, rfl⟩ := exists_cons_of_length_eq_add_one hlen.symm
    rw [all_cons, Bool.and_eq_true, Boot.isDigit_iff] at hx hy
    have hzero : '0'.toNat = 48 := rfl
    refine ih hx.2 hy.2 (Nat.succ.inj hlen) _ _ ?_
    rw [cons_lt_cons_iff, Char.lt_def, UInt32.lt_iff_toNat_lt] at h
    change _ ∨ _ ∧ (c.toNat < d.toNat ∨ _) at h
    dsimp only
    rcases h with h | ⟨rfl, h | ⟨rfl, h⟩⟩
    · left; omega
    · left; omega
    · exact .inr ⟨rfl, h⟩

theorem comparable_of_aligned {as bs : List Text} (ha : Numeric as) (hb : Numeric bs)
    (h : Aligned as bs) : Comparable as bs := by
  induction as generalizing bs with
  | nil => trivial
  | cons x as ih =>
    cases bs with
    | nil => trivial
    | cons y bs =>
      rw [Numeric, forall_mem_cons] at ha hb
      rw [Aligned, zip_cons_cons, forall_mem_cons] at h
      obtain ⟨⟨hfits, hlen⟩, hrest⟩ := h
      have hcomp := ih ha.2 hb.2 hrest
      rw [Comparable]
      by_cases hfx : Fits x
      · rw [if_pos ⟨hfx, hfits.mp hfx⟩]
        exact fun _ => hcomp
      · rw [if_neg fun hand => hfx hand.1]
        split
        · exact hcomp
        · next hne =>
          refine ⟨⟨hfx, fun hfy => hfx (hfits.mpr hfy)⟩, ?_⟩
          simp only [nats, map_cons, cons_lt_cons_iff]
          rcases lt_or_gt_of_ne hne with hlt | hlt
          · have hval := foldl_digits_lt ha.1.2 hb.1.2 (hlen hfx) 0 0 (.inr ⟨rfl, hlt⟩)
            exact .inl ⟨hlt, .inl hval⟩
          · have hval := foldl_digits_lt hb.1.2 ha.1.2 (hlen hfx).symm 0 0 (.inr ⟨rfl, hlt⟩)
            exact .inr ⟨hlt, .inl hval⟩

/-! ## Ranking -/

def rankKey (want v : Text) (score : Nat) : Nat ×ₗ Bool ×ₗ VersionKey :=
  toLex (score, toLex (floating want && !isPrerelease v, versionKey v))

/-- By the score, then releases first when any version will do, then by the version. -/
def Outranks (want v w : Text) : Prop :=
  versionMatch want w < versionMatch want v ∨ versionMatch want w = versionMatch want v ∧
    (floating want = true ∧ isPrerelease v = false ∧ isPrerelease w = true ∨
      (floating want = true → isPrerelease v = isPrerelease w) ∧ 0 < compareVersions v w)

theorem less_eq_true_iff (want v w : Text) (m n : Nat) :
    less want (v, m) (w, n) = true ↔ rankKey want w n < rankKey want v m := by
  simp only [less, rankKey, Prod.Lex.toLex_lt_toLex, ← compareVersions_pos]
  by_cases hmn : m = n
  · cases floating want
    · simp [hmn]
    · cases isPrerelease v <;> cases isPrerelease w <;> simp [hmn]
  · simp [hmn, Ne.symm hmn]

theorem outranks_iff (want v w : Text) :
    Outranks want v w ↔
      rankKey want w (versionMatch want w) < rankKey want v (versionMatch want v) := by
  simp only [Outranks, rankKey, Prod.Lex.toLex_lt_toLex, ← compareVersions_pos]
  cases floating want
  · simp
  · cases isPrerelease v <;> cases isPrerelease w <;> simp

section Rank

variable {Pkg : Type*} (version : Pkg → Text)

/-- A package that is kept and matches the request. -/
def Kept (pkgs : List Pkg) (want : Text) (keep : Option (Pkg → Bool)) (p : Pkg) : Prop :=
  p ∈ pkgs ∧ (∀ f ∈ keep, f p = true) ∧ 0 < versionMatch want (version p)

variable {version} {pkgs : List Pkg} {want : Text} {keep : Option (Pkg → Bool)} {p : Pkg}

theorem mem_ranked {score : Nat} :
    (p, score) ∈ ranked version pkgs want keep ↔
      Kept version pkgs want keep p ∧ score = versionMatch want (version p) := by
  rw [ranked, mem_filterMap, Kept]
  constructor
  · rintro ⟨q, hq, h⟩
    split_ifs at h with hkeep hscore
    · cases h
      exact ⟨⟨hq, fun f hf => by simpa [Option.mem_def.mp hf] using hkeep, hscore⟩, rfl⟩
  · rintro ⟨⟨hp, hkeep, hscore⟩, rfl⟩
    refine ⟨p, hp, ?_⟩
    rw [if_neg, if_pos hscore]
    cases keep with
    | none => simp
    | some f => simp [hkeep f rfl]

theorem mem_rankByVersion :
    p ∈ rankByVersion version pkgs want keep ↔ Kept version pkgs want keep p := by
  simp [rankByVersion, mem_ranked]

/-- What the sort puts first is not below anything in the list. -/
theorem not_outranks_head {rest : List Pkg} (h : rankByVersion version pkgs want keep = p :: rest)
    {q : Pkg} (hq : Kept version pkgs want keep q) : ¬ Outranks want (version q) (version p) := by
  have hle : ∀ i j : Pkg × Nat, (!less want (version j.1, j.2) (version i.1, i.2)) = true ↔
      rankKey want (version j.1) j.2 ≤ rankKey want (version i.1) i.2 := by
    intro i j
    rw [Bool.not_eq_true', ← Bool.not_eq_true, less_eq_true_iff, not_lt]
  have hsorted := pairwise_mergeSort
    (fun i j k hij hjk => (hle i k).mpr (((hle j k).mp hjk).trans ((hle i j).mp hij)))
    (fun i j => by rw [Bool.or_eq_true, hle, hle]; exact le_total _ _)
      (ranked version pkgs want keep)
  rw [rankByVersion] at h
  obtain ⟨⟨p, score⟩, scores, hsort, rfl, -⟩ := map_eq_cons_iff.mp h
  have hscore := (mem_ranked.mp (mem_mergeSort.mp (hsort.symm ▸ mem_cons_self))).2
  have hmem : (q, versionMatch want (version q)) ∈ (p, score) :: scores :=
    hsort ▸ mem_mergeSort.mpr (mem_ranked.mpr ⟨hq, rfl⟩)
  rw [hsort] at hsorted
  rw [outranks_iff, not_lt, ← hscore]
  rcases mem_cons.mp hmem with heq | hin
  · cases heq
    exact le_refl _
  · exact (hle _ _).mp ((pairwise_cons.mp hsorted).1 _ hin)

theorem outranks_trichotomy {v w : Text} (h : ¬ Outranks want v w) (h' : ¬ Outranks want w v) :
    versionMatch want v = versionMatch want w ∧ compareVersions v w = 0 := by
  rw [outranks_iff, not_lt] at h h'
  have hkey := le_antisymm h h'
  simp only [rankKey, toLex_inj, Prod.mk.injEq] at hkey
  refine ⟨hkey.1, le_antisymm ((compareVersions_nonpos v w).mpr hkey.2.2.le) ?_⟩
  exact not_lt.mp fun hlt => ((compareVersions_lt_zero v w).mp hlt).ne hkey.2.2

end Rank

/-- The order on versions and the ranking by it.  Numbers are compared as such, if and only
if the versions are comparable, as those are that do not mix lengths where numbers do not fit. -/
theorem compareVersions_ranks {Pkg : Type*} (version : Pkg → Text) :
    (∀ a b, compareVersions b a = -compareVersions a b) ∧
    (∀ a b c, compareVersions a b ≤ 0 → compareVersions b c ≤ 0 → compareVersions a c ≤ 0) ∧
    (∀ as bs, Numeric as → Numeric bs →
      (Agrees (compareVersions (dotted as) (dotted bs)) (nats as) (nats bs) ↔ Comparable as bs) ∧
        (Aligned as bs → Comparable as bs)) ∧
    (∀ pkgs want keep,
      (rankByVersion version pkgs want keep = [] ↔ ∀ p, ¬ Kept version pkgs want keep p) ∧
      ∀ p rest, rankByVersion version pkgs want keep = p :: rest →
        Kept version pkgs want keep p ∧
        (∀ q, Kept version pkgs want keep q → ¬ Outranks want (version q) (version p)) ∧
        ∀ pkgs' p' rest', pkgs'.Perm pkgs → rankByVersion version pkgs' want keep = p' :: rest' →
          versionMatch want (version p) = versionMatch want (version p') ∧
            compareVersions (version p) (version p') = 0) := by
  refine ⟨compareVersions_neg, fun a b c hab hbc => ?_,
    fun as bs ha hb => ⟨?_, comparable_of_aligned ha hb⟩, fun pkgs want keep => ⟨?_, ?_⟩⟩
  · rw [compareVersions_nonpos] at hab hbc ⊢
    exact hab.trans hbc
  · rw [compareVersions_dotted ha hb]
    exact agrees_compareRuns_iff ha hb
  · simp only [eq_nil_iff_forall_not_mem, mem_rankByVersion]
  · intro p rest h
    have hp : Kept version pkgs want keep p := mem_rankByVersion.mp (h ▸ mem_cons_self)
    refine ⟨hp, fun q hq => not_outranks_head h hq, fun pkgs' p' rest' hperm h' => ?_⟩
    have hp' : Kept version pkgs' want keep p' := mem_rankByVersion.mp (h' ▸ mem_cons_self)
    have hq : Kept version pkgs want keep p' := ⟨hperm.mem_iff.mp hp'.1, hp'.2⟩
    have hq' : Kept version pkgs' want keep p := ⟨hperm.mem_iff.mpr hp.1, hp.2⟩
    exact outranks_trichotomy (not_outranks_head h' hq') (not_outranks_head h hq)

/-- A number that does not fit is taken for a text, and so for less than any that does. -/
theorem large_component_below_one :
    compareVersions "18446744073709551616".toList "1".toList = -1 ∧
      nats ["1".toList] < nats ["18446744073709551616".toList] ∧
      ¬ Agrees (compareVersions (dotted ["18446744073709551616".toList]) (dotted ["1".toList]))
        (nats ["18446744073709551616".toList]) (nats ["1".toList]) := by
  have hcmp : compareVersions "18446744073709551616".toList "1".toList = -1 := by decide +kernel
  have hlt : nats ["1".toList] < nats ["18446744073709551616".toList] := by decide +kernel
  exact ⟨hcmp, hlt, fun h => lt_asymm hlt (h.1.mp (by rw [dotted, dotted]; decide +kernel))⟩

end Jerboa.Package.Version
