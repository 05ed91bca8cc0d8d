import Jerboa.Boot.Config
import Jerboa.Lib.Int64
import Mathlib.Data.List.DropRight

/-!
# Amounts of memory

The memory of a VM is a text: `validateVMConfig` lets it pass, QEMU gets it as it is,
and for Firecracker `parseMiB` of package `vm` makes a number of it.  The pattern that
lets it pass knows more units than `parseMiB` does.
-/

namespace Jerboa.Boot

open List Lib Net.Address

def isSpace (c : Char) : Bool :=
  c.toNat ∈ [0x09, 0x0a, 0x0b, 0x0c, 0x0d, 0x20, 0x85, 0xa0, 0x1680, 0x2028, 0x2029, 0x202f, 0x205f,
    0x3000] ||
    decide (0x2000 ≤ c.toNat ∧ c.toNat ≤ 0x200a)

def trimSpace (s : Text) : Text := (s.dropWhile isSpace).rdropWhile isSpace

inductive MemoryErr where
  | atoi (s : Text)
  | lessThanOneMiB (mem : Text)
deriving DecidableEq

def atoiErr (s : Text) : Except MemoryErr Int :=
  match atoi s with
  | none => .error (.atoi s)
  | some n => .ok n

def parseMiB (mem : Text) : Except MemoryErr Int :=
  let mem := trimSpace mem
  match mem.getLast? with
  | none => .ok 128
  | some suffix =>
    if suffix ∈ ['M', 'm'] then atoiErr mem.dropLast
    else if suffix ∈ ['G', 'g'] then do
      let n ← atoiErr mem.dropLast
      return int64 (n * 1024)
    else if suffix ∈ ['K', 'k'] then do
      let n ← atoiErr mem.dropLast
      throwIf (n < 1024) (.lessThanOneMiB mem)
      return n.tdiv 1024
    else atoiErr mem

def number (mem : Text) : Nat := decimalValue (mem.takeWhile Char.isDigit)

def unit (mem : Text) : Text := mem.dropWhile Char.isDigit

def unitBytes : Text → Nat
  | [] => 2 ^ 20
  | c :: _ =>
    if c ∈ ['K', 'k'] then 2 ^ 10
    else if c ∈ ['M', 'm'] then 2 ^ 20
    else if c ∈ ['G', 'g'] then 2 ^ 30
    else 2 ^ 40

def amount (mem : Text) : Nat := number mem * unitBytes (unit mem)

/-- The number that `parseMiB` returns for the text is the amount it means. -/
def Denotes (mem : Text) : Prop := ∃ m : Int, parseMiB mem = .ok m ∧ m * 2 ^ 20 = amount mem

/-- The unit is a single letter that `parseMiB` knows, the amount is one of whole MiB,
and the numbers fit. -/
structure Plain (mem : Text) : Prop where
  known : unit mem ∈ [[], ['K'], ['k'], ['M'], ['m'], ['G'], ['g']]
  number_lt : number mem < 2 ^ 63
  amount_lt : amount mem < 2 ^ 83
  whole : 2 ^ 20 ∣ amount mem

/-! ## Texts that pass -/

variable {c : Char}

theorem isDigit_iff : c.isDigit = true ↔ 48 ≤ c.toNat ∧ c.toNat ≤ 57 := by
  rw [Char.isDigit, Bool.and_eq_true, decide_eq_true_eq, decide_eq_true_eq, ge_iff_le,
    UInt32.le_iff_toNat_le, UInt32.le_iff_toNat_le]
  exact Iff.rfl

theorem isSpace_of_isDigit (h : c.isDigit = true) : isSpace c = false := by
  rw [isDigit_iff] at h
  simp only [isSpace, mem_cons, not_mem_nil, or_false, Bool.or_eq_false_iff,
    decide_eq_false_iff_not]
  omega

theorem le_foldl_decimal (ds : Text) (acc : Nat) :
    acc ≤ ds.foldl (fun acc c => acc * 10 + (c.toNat - '0'.toNat)) acc := by
  induction ds generalizing acc with
  | nil => exact le_refl acc
  | cons c ds ih =>
    have hstep := ih (acc * 10 + (c.toNat - '0'.toNat))
    rw [foldl_cons]
    omega

variable {mem : Text}

theorem memoryRe_cons (h : memoryRe mem = true) :
    ∃ c rest, mem = c :: rest ∧ c.isDigit = true ∧ 49 ≤ c.toNat ∧ memoryUnit (unit mem) = true := by
  cases mem with
  | nil => cases h
  | cons c rest =>
    rw [memoryRe, Bool.and_eq_true, decide_eq_true_eq] at h
    obtain ⟨⟨hlow, hhigh⟩, hunit⟩ := h
    have hlow : 49 ≤ c.toNat := hlow
    have hhigh : c.toNat ≤ 57 := hhigh
    have hdigit : c.isDigit = true := isDigit_iff.mpr ⟨by omega, hhigh⟩
    refine ⟨c, rest, rfl, hdigit, hlow, ?_⟩
    rw [unit, dropWhile_cons_of_pos hdigit]
    exact hunit

theorem number_pos (h : memoryRe mem = true) : 0 < number mem := by
  obtain ⟨c, rest, rfl, hdigit, hc, -⟩ := memoryRe_cons h
  have hle := le_foldl_decimal (rest.takeWhile Char.isDigit) (c.toNat - '0'.toNat)
  have hzero : '0'.toNat = 48 := rfl
  rw [number, takeWhile_cons_of_pos hdigit, decimalValue, foldl_cons, Nat.zero_mul, Nat.zero_add]
  omega

theorem memoryUnit_iff {u : Text} : memoryUnit u = true ↔
    u = [] ∨ ∃ c rest, u = c :: rest ∧ c ∈ ['K', 'k', 'M', 'm', 'G', 'g', 'T', 't'] ∧
      rest ∈ [[], ['i'], ['B'], ['b'], ['i', 'B'], ['i', 'b']] := by
  cases u with
  | nil | cons => simp [memoryUnit]

theorem getLast_unit {u : Text} (h : memoryUnit u = true) (hne : u ≠ []) :
    ∃ last, u.getLast? = some last ∧ isSpace last = false ∧ last.isDigit = false ∧
      (last ∈ ['K', 'k', 'M', 'm', 'G', 'g'] → u = [last]) := by
  obtain rfl | ⟨c, rest, rfl, hc, hrest⟩ := memoryUnit_iff.mp h
  · exact absurd rfl hne
  · simp only [mem_cons, not_mem_nil, or_false] at hc hrest
    rcases hrest with rfl | rfl | rfl | rfl | rfl | rfl
    · refine ⟨c, rfl, ?_, ?_, fun _ => rfl⟩
      · rcases hc with rfl | rfl | rfl | rfl | rfl | rfl | rfl | rfl <;> decide
      · rcases hc with rfl | rfl | rfl | rfl | rfl | rfl | rfl | rfl <;> decide
    · exact ⟨'i', rfl, by decide, by decide, by simp⟩
    · exact ⟨'B', rfl, by decide, by decide, by simp⟩
    · exact ⟨'b', rfl, by decide, by decide, by simp⟩
    · exact ⟨'B', rfl, by decide, by decide, by simp⟩
    · exact ⟨'b', rfl, by decide, by decide, by simp⟩

theorem getLast?_eq (h : memoryRe mem = true) :
    ∃ last, mem.getLast? = some last ∧ isSpace last = false ∧
      (last ∈ ['K', 'k', 'M', 'm', 'G', 'g'] → unit mem = [last]) := by
  obtain ⟨c, rest, hmem, hdigit, -, hunit⟩ := memoryRe_cons h
  have hsplit : mem.takeWhile Char.isDigit ++ unit mem = mem := takeWhile_append_dropWhile
  by_cases hne : unit mem = []
  · rw [hne, append_nil] at hsplit
    have hlast : mem.getLast? ≠ none := by
      rw [hmem]
      simp
    obtain ⟨last, hlast⟩ := Option.ne_none_iff_exists'.mp hlast
    have hdig : last.isDigit = true := by
      have hin := mem_of_getLast? hlast
      rw [← hsplit] at hin
      exact mem_takeWhile_imp hin
    refine ⟨last, hlast, isSpace_of_isDigit hdig, fun hletter => ?_⟩
    simp only [mem_cons, not_mem_nil, or_false] at hletter
    rcases hletter with rfl | rfl | rfl | rfl | rfl | rfl <;> cases hdig
  · obtain ⟨last, hlast, hspace, -, hsingle⟩ := getLast_unit hunit hne
    refine ⟨last, ?_, hspace, hsingle⟩
    rw [← hsplit, getLast?_append, hlast]
    rfl

theorem trimSpace_eq (h : memoryRe mem = true) : trimSpace mem = mem := by
  obtain ⟨last, hlast, hspace, -⟩ := getLast?_eq h
  obtain ⟨c, rest, rfl, hdigit, -, -⟩ := memoryRe_cons h
  have hfirst : (c :: rest).dropWhile isSpace = c :: rest :=
    dropWhile_cons_of_neg (by rw [isSpace_of_isDigit hdigit]; simp)
  rw [trimSpace, hfirst, rdropWhile_eq_self_iff]
  intro hne
  rw [getLast?_eq_some_getLast hne] at hlast
  rw [Option.some.inj hlast, hspace]
  simp

theorem atoi_cons (hc : c.isDigit = true) (rest : Text) :
    atoi (c :: rest) = if (c :: rest).all Char.isDigit = false then none
      else if decimalValue (c :: rest) < 2 ^ 63 then some (decimalValue (c :: rest) : Int)
        else none := by
  unfold atoi
  split
  next negative digits heq =>
    unfold sign at heq
    split at heq
    · next hminus =>
      rw [(List.cons.inj hminus).1] at hc
      cases hc
    · next hplus =>
      rw [(List.cons.inj hplus).1] at hc
      cases hc
    · cases heq
      simp

theorem atoi_digits {ds : Text} (hne : ds ≠ []) (hall : ∀ c ∈ ds, c.isDigit = true) :
    atoi ds = if decimalValue ds < 2 ^ 63 then some (decimalValue ds : Int) else none := by
  cases ds with
  | nil => exact absurd rfl hne
  | cons c =>
    rw [atoi_cons (hall c mem_cons_self), all_eq_true.mpr hall]
    rfl

theorem atoi_number (h : memoryRe mem = true) :
    atoi (mem.takeWhile Char.isDigit) = if number mem < 2 ^ 63 then some (number mem : Int)
      else none := by
  refine atoi_digits ?_ fun c hc => mem_takeWhile_imp hc
  obtain ⟨c, rest, rfl, hdigit, -, -⟩ := memoryRe_cons h
  rw [takeWhile_cons_of_pos hdigit]
  exact cons_ne_nil _ _

theorem atoi_unit (h : memoryRe mem = true) (hne : unit mem ≠ []) : atoi mem = none := by
  obtain ⟨c, rest, hmem, hfirst, -, hunit⟩ := memoryRe_cons h
  obtain ⟨last, hlast, -, hdigit, -⟩ := getLast_unit hunit hne
  have hin : last ∈ mem := (dropWhile_suffix _).mem (mem_of_getLast? hlast)
  have hall : mem.all Char.isDigit = false := by
    rw [all_eq_false]
    exact ⟨last, hin, by rw [hdigit]; simp⟩
  rw [hmem] at hall ⊢
  rw [atoi_cons hfirst, if_pos hall]

theorem parseMiB_eq (h : memoryRe mem = true) :
    parseMiB mem =
      if unit mem = [] then atoiErr mem
      else if unit mem ∈ [['M'], ['m']] then atoiErr (mem.takeWhile Char.isDigit)
      else if unit mem ∈ [['G'], ['g']] then do
        let n ← atoiErr (mem.takeWhile Char.isDigit)
        return int64 (n * 1024)
      else if unit mem ∈ [['K'], ['k']] then do
        let n ← atoiErr (mem.takeWhile Char.isDigit)
        throwIf (n < 1024) (.lessThanOneMiB mem)
        return n.tdiv 1024
      else .error (.atoi mem) := by
  obtain ⟨last, hlast, -, hsingle⟩ := getLast?_eq h
  have hsplit : mem.takeWhile Char.isDigit ++ unit mem = mem := takeWhile_append_dropWhile
  have hdrop : ∀ c, unit mem = [c] → mem.dropLast = mem.takeWhile Char.isDigit := by
    intro c hc
    conv_lhs => rw [← hsplit, hc]
    exact dropLast_concat
  have hunit : ∀ c, unit mem = [c] → last = c := by
    intro c hc
    rw [← hsplit, hc, getLast?_concat] at hlast
    exact (Option.some.inj hlast).symm
  rw [parseMiB, trimSpace_eq h, hlast]
  by_cases hletter : last ∈ ['K', 'k', 'M', 'm', 'G', 'g']
  · have hu := hsingle hletter
    rw [hdrop last hu, hu]
    simp only [mem_cons, not_mem_nil, or_false] at hletter
    rcases hletter with rfl | rfl | rfl | rfl | rfl | rfl <;> rfl
  · -- any other last letter leads to the whole text
    have hnot : ∀ c, c ∈ ['K', 'k', 'M', 'm', 'G', 'g'] → unit mem ≠ [c] := by
      intro c hc hu
      rw [← hunit c hu] at hc
      exact hletter hc
    simp only [mem_cons, not_mem_nil, or_false, not_or] at hletter
    obtain ⟨hK, hk, hM, hm, hG, hg⟩ := hletter
    by_cases hnil : unit mem = []
    · simp [hnil, hK, hk, hM, hm, hG, hg]
    · simp [hnil, hK, hk, hM, hm, hG, hg, hnot, atoiErr, atoi_unit h hnil]

theorem number_of_unit_nil (hnil : unit mem = []) : mem.takeWhile Char.isDigit = mem := by
  have hsplit : mem.takeWhile Char.isDigit ++ unit mem = mem := takeWhile_append_dropWhile
  rwa [hnil, append_nil] at hsplit

theorem atoiErr_number (h : memoryRe mem = true) {m : Int} :
    atoiErr (mem.takeWhile Char.isDigit) = .ok m ↔ number mem < 2 ^ 63 ∧ m = number mem := by
  rw [atoiErr, atoi_number h]
  by_cases hfits : number mem < 2 ^ 63
  · rw [if_pos hfits]
    exact ⟨fun heq => ⟨hfits, (Except.ok.inj heq).symm⟩, fun heq => by rw [heq.2]⟩
  · rw [if_neg hfits]
    exact ⟨nofun, fun heq => absurd heq.1 hfits⟩

theorem accepted_memory {cfg : Config} (h : validateVMConfig cfg = .ok ()) :
    memoryRe cfg.memory = true := by
  simp only [validateVMConfig, bind_eq_ok, throwIf_eq_ok] at h
  obtain ⟨-, -, ⟨⟩, -, ⟨⟩, -, ⟨⟩, -, ⟨⟩, hmemory, -⟩ := h
  exact Bool.of_not_eq_false hmemory

/-! ### The units -/

section Units

variable {mem : Text} (h : memoryRe mem = true)

include h

theorem denotes_of_mebi (hparse : parseMiB mem = atoiErr (mem.takeWhile Char.isDigit))
    (hbytes : unitBytes (unit mem) = 2 ^ 20) : Denotes mem ↔ number mem < 2 ^ 63 := by
  have hamount : (amount mem : Int) = number mem * 2 ^ 20 := by rw [amount, hbytes]; omega
  unfold Denotes
  rw [hparse, hamount]
  constructor
  · rintro ⟨m, hm, -⟩
    exact ((atoiErr_number h).mp hm).1
  · intro hfits
    exact ⟨number mem, (atoiErr_number h).mpr ⟨hfits, rfl⟩, rfl⟩

theorem denotes_of_gibi (hparse : parseMiB mem = do
      let n ← atoiErr (mem.takeWhile Char.isDigit)
      return int64 (n * 1024)) (hbytes : unitBytes (unit mem) = 2 ^ 30) :
    Denotes mem ↔ number mem < 2 ^ 63 ∧ number mem * 1024 < 2 ^ 63 := by
  have hamount : (amount mem : Int) = number mem * 2 ^ 30 := by rw [amount, hbytes]; omega
  unfold Denotes
  rw [hparse, hamount]
  constructor
  · rintro ⟨m, hm, heq⟩
    obtain ⟨n, hn, hm⟩ := bind_eq_ok.mp hm
    obtain ⟨hfits, rfl⟩ := (atoiErr_number h).mp hn
    have hlt := int64_lt (number mem * 1024)
    rw [pure_eq_ok] at hm
    refine ⟨hfits, ?_⟩
    omega
  · rintro ⟨hfits, hprod⟩
    have hwrap := int64_eq_self (x := number mem * 1024) (by omega) (by omega)
    refine ⟨number mem * 1024, bind_eq_ok.mpr ⟨number mem, (atoiErr_number h).mpr ⟨hfits, rfl⟩, ?_⟩,
      by omega⟩
    rw [hwrap]
    rfl

theorem denotes_of_kibi (hparse : parseMiB mem = do
      let n ← atoiErr (mem.takeWhile Char.isDigit)
      throwIf (n < 1024) (.lessThanOneMiB mem)
      return n.tdiv 1024) (hbytes : unitBytes (unit mem) = 2 ^ 10) :
    Denotes mem ↔ number mem < 2 ^ 63 ∧ 1024 ∣ number mem := by
  have hpos := number_pos h
  have hamount : (amount mem : Int) = number mem * 2 ^ 10 := by rw [amount, hbytes]; omega
  have hdiv : ((number mem : Int)).tdiv 1024 = (number mem / 1024 : Nat) := by
    rw [Int.tdiv_eq_ediv_of_nonneg (by omega)]
    rfl
  unfold Denotes
  rw [hparse, hamount]
  constructor
  · rintro ⟨m, hm, heq⟩
    obtain ⟨n, hn, hm⟩ := bind_eq_ok.mp hm
    obtain ⟨-, -, hm⟩ := bind_eq_ok.mp hm
    obtain ⟨hfits, rfl⟩ := (atoiErr_number h).mp hn
    rw [pure_eq_ok, hdiv] at hm
    refine ⟨hfits, ?_⟩
    omega
  · rintro ⟨hfits, k, hk⟩
    refine ⟨(number mem / 1024 : Nat), bind_eq_ok.mpr
      ⟨number mem, (atoiErr_number h).mpr ⟨hfits, rfl⟩, ?_⟩, ?_⟩
    · refine bind_eq_ok.mpr ⟨(), (throwIf_eq_ok _ _ _).mpr (by omega), ?_⟩
      rw [pure_eq_ok, hdiv]
    · omega

end Units

/-- A memory text of an accepted configuration means what `parseMiB` makes of it, if and
only if it is plain. -/
theorem parseMiB_denotes_iff (cfg : Config) (h : validateVMConfig cfg = .ok ()) :
    Denotes cfg.memory ↔ Plain cfg.memory := by
  have hre := accepted_memory h
  generalize cfg.memory = mem at hre
  have hparse := parseMiB_eq hre
  have hcases : unit mem ∈ [[], ['M'], ['m']] ∨ unit mem ∈ [['G'], ['g']] ∨
    unit mem ∈ [['K'], ['k']] ∨
      unit mem ∉ [[], ['K'], ['k'], ['M'], ['m'], ['G'], ['g']] := by
    simp only [mem_cons, not_mem_nil, or_false]
    tauto
  rcases hcases with hmebi | hgibi | hkibi | hother
  · have hbytes : unitBytes (unit mem) = 2 ^ 20 := by
      simp only [mem_cons, not_mem_nil, or_false] at hmebi
      rcases hmebi with hu | hu | hu <;> rw [hu] <;> rfl
    have hparse' : parseMiB mem = atoiErr (mem.takeWhile Char.isDigit) := by
      simp only [mem_cons, not_mem_nil, or_false] at hmebi
      rcases hmebi with hu | hu | hu
      · rw [hparse, if_pos hu, number_of_unit_nil hu]
      · rw [hparse, hu]
        rfl
      · rw [hparse, hu]
        rfl
    rw [denotes_of_mebi hre hparse' hbytes]
    have hamount : amount mem = number mem * 2 ^ 20 := by rw [amount, hbytes]
    refine ⟨fun hfits => ⟨?_, hfits, by omega, by omega⟩, fun hplain => hplain.number_lt⟩
    simp only [mem_cons, not_mem_nil, or_false] at hmebi ⊢
    tauto
  · have hbytes : unitBytes (unit mem) = 2 ^ 30 := by
      simp only [mem_cons, not_mem_nil, or_false] at hgibi
      rcases hgibi with hu | hu <;> rw [hu] <;> rfl
    have hparse' : parseMiB mem = do
        let n ← atoiErr (mem.takeWhile Char.isDigit)
        return int64 (n * 1024) := by
      simp only [mem_cons, not_mem_nil, or_false] at hgibi
      rcases hgibi with hu | hu <;> rw [hparse, hu] <;> rfl
    rw [denotes_of_gibi hre hparse' hbytes]
    have hamount : amount mem = number mem * 2 ^ 30 := by rw [amount, hbytes]
    refine ⟨fun hfits => ⟨?_, hfits.1, by omega, by omega⟩, fun hplain => ⟨hplain.number_lt, ?_⟩⟩
    · simp only [mem_cons, not_mem_nil, or_false] at hgibi ⊢
      tauto
    · have hlt := hplain.amount_lt
      omega
  · have hbytes : unitBytes (unit mem) = 2 ^ 10 := by
      simp only [mem_cons, not_mem_nil, or_false] at hkibi
      rcases hkibi with hu | hu <;> rw [hu] <;> rfl
    have hparse' : parseMiB mem = do
        let n ← atoiErr (mem.takeWhile Char.isDigit)
        throwIf (n < 1024) (.lessThanOneMiB mem)
        return n.tdiv 1024 := by
      simp only [mem_cons, not_mem_nil, or_false] at hkibi
      rcases hkibi with hu | hu <;> rw [hparse, hu] <;> rfl
    rw [denotes_of_kibi hre hparse' hbytes]
    have hamount : amount mem = number mem * 2 ^ 10 := by rw [amount, hbytes]
    refine ⟨fun hfits => ⟨?_, hfits.1, by omega, by omega⟩, fun hplain => ⟨hplain.number_lt, ?_⟩⟩
    · simp only [mem_cons, not_mem_nil, or_false] at hkibi ⊢
      tauto
    · have hwhole := hplain.whole
      omega
  · have hother' := hother
    simp only [mem_cons, not_mem_nil, or_false, not_or] at hother'
    refine ⟨fun hdenotes => ?_, fun hplain => absurd hplain.known hother⟩
    obtain ⟨m, hm, -⟩ := hdenotes
    rw [hparse] at hm
    simp [hother'] at hm

def sized (memory : Text) : Config := { imagePath := "/disk".toList, memory }

theorem parseMiB_denotes_iff_gibi :
    validateVMConfig (sized "2G".toList) = .ok () ∧ Denotes "2G".toList :=
  ⟨by decide +kernel, (parseMiB_denotes_iff (sized "2G".toList) (by decide +kernel)).mpr
    ⟨by decide +kernel, by decide +kernel, by decide +kernel, by decide +kernel⟩⟩

/-- A configuration may ask for two gibibytes in full. -/
theorem gib_not_parsed :
    validateVMConfig (sized "2GiB".toList) = .ok () ∧
      parseMiB "2GiB".toList = .error (.atoi "2GiB".toList) ∧ ¬ Denotes "2GiB".toList := by
  have hparse : parseMiB "2GiB".toList = .error (.atoi "2GiB".toList) := by decide +kernel
  refine ⟨by decide +kernel, hparse, ?_⟩
  rintro ⟨m, hm, -⟩
  rw [hparse] at hm
  cases hm

end Jerboa.Boot
