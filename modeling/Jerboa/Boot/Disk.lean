import Jerboa.Image.Manifest
import Jerboa.Lib.Bytes

/-!
# Boot disks

Package `diskclone` copies and hashes a file by the ranges of it that `SEEK_DATA` and
`SEEK_HOLE` report, and `prepareBootDisk` makes a VM's private disk of an image.  A file is
its bytes, those of a hole are zero, and reading and writing succeed.
-/

namespace Jerboa.Boot.Disk

open List Lib Lib.Bytes Net.Address Image

/-- What a seek returns.  `noData` is `ENXIO`. -/
inductive Seek where
  | found (off : Nat)
  | noData
  | unsupported
  | failed

/-- What the file system reports of a file.  It passes over no byte that is stored, and finds
no hole where it has found data. -/
structure Layout (f : Bytes) where
  seekData : Nat → Seek
  seekHole : Nat → Seek
  found {off data : Nat} (h : seekData off = .found data) :
    off ≤ data ∧ ∀ x ∈ slice f off (data - off), x = 0
  noData {off : Nat} (h : seekData off = .noData) : ∀ x ∈ f.drop off, x = 0
  hole {off data hole : Nat} (hdata : seekData off = .found data)
    (h : seekHole data = .found hole) : data < hole

inductive SeekErr where
  | data
  | hole

variable {f : Bytes} {σ : Type*}

def forEachDataRange (l : Layout f) (fn : Nat → Nat → σ → σ) (off : Nat) (s : σ) :
    Except SeekErr σ :=
  if off < f.length then
    match _hdata : l.seekData off with
    | .noData => .ok s
    | .unsupported => if off = 0 then .ok (fn 0 f.length s) else .error .data
    | .failed => .error .data
    | .found data =>
      if f.length ≤ data then .ok s
      else
        match _hhole : l.seekHole data with
        | .found hole => forEachDataRange l fn (min hole f.length) (fn data (min hole f.length) s)
        | _ => .error .hole
  else .ok s
termination_by f.length - off
decreasing_by
  have hle := (l.found _hdata).1
  have hlt := l.hole _hdata _hhole
  omega

def blockSize : Nat := 2 ^ 16

/-- `WriteAt`, which may begin after the end. -/
def writeAt (out : Bytes) (off : Nat) (buf : Bytes) : Bytes :=
  (out.take off).rightpad off 0 ++ buf ++ out.drop (off + buf.length)

def truncate (out : Bytes) (size : Nat) : Bytes := (out.take size).rightpad size 0

/-- The loop of `SparseCopy` over the blocks of a range. -/
def copyBlocks (f : Bytes) (off stop : Nat) (out : Bytes) : Bytes :=
  if off < stop then
    let n := min blockSize (stop - off)
    let buf := slice f off n
    copyBlocks f (off + n) stop (if buf = replicate n 0 then out else writeAt out off buf)
  else out
termination_by stop - off
decreasing_by
  have hpos : 0 < blockSize := by decide
  omega

def sparseCopy (l : Layout f) : Except SeekErr Bytes :=
  (forEachDataRange l (copyBlocks f) 0 []).map (truncate · f.length)

def hashZeros (h : Bytes) (n : Nat) : Bytes :=
  if 0 < n then hashZeros (h ++ replicate (min n blockSize) 0) (n - min n blockSize) else h
termination_by n
decreasing_by
  have hpos : 0 < blockSize := by decide
  omega

/-- A range goes into the hash behind the zeros since the last one. -/
def hashRange (f : Bytes) (start stop : Nat) (s : Bytes × Nat) : Bytes × Nat :=
  (hashZeros s.1 (start - s.2) ++ slice f start (stop - start), stop)

/-- The hash is that of the bytes that were written to it. -/
def hashFile (sha256 : Bytes → Text) (l : Layout f) : Except SeekErr Text :=
  (forEachDataRange l (hashRange f) 0 ([], 0)).map fun s => sha256 (hashZeros s.1 (f.length - s.2))

inductive BootErr where
  | clone (err : SeekErr)
  | verify (err : SeekErr)
  | mismatch
  | extend

def diskSizeAlign : Nat := 2 ^ 19

def extendDisk (disk : Bytes) (minSize : Int) : Except BootErr Bytes :=
  if minSize ≤ 0 then .ok disk
  else if minSize ≤ disk.length then .ok disk
  -- The sum wraps around to a negative size, which `Truncate` refuses.
  else if 2 ^ 63 ≤ minSize + diskSizeAlign - 1 then .error .extend
  else .ok (truncate disk ((minSize + diskSizeAlign - 1) / diskSizeAlign * diskSizeAlign).toNat)

/-- `cloned` says whether the file system clones files, `layout` what it reports of the new
file, and `trusted` what the function returns, if there is one. -/
def prepareBootDisk (sha256 : Bytes → Text) (l : Layout f) (cloned : Bool) (layout : ∀ f, Layout f)
    (digest : Text) (minSize : Int) (trusted : Option Bool) : Except BootErr Bytes :=
  match if cloned then .ok f else sparseCopy l with
  | .error err => .error (.clone err)
  | .ok disk =>
    if digest ≠ [] ∧ trusted ≠ some true then
      match hashFile sha256 (layout disk) with
      | .error err => .error (.verify err)
      | .ok got => if got ≠ digest then .error .mismatch else extendDisk disk minSize
    else extendDisk disk minSize

/-- The offsets at which the loop looks for data. -/
inductive Layout.Visits (l : Layout f) : Nat → Prop where
  | start : l.Visits 0
  | next {off data hole : Nat} (hoff : l.Visits off) (hdata : l.seekData off = .found data)
      (hhole : l.seekHole data = .found hole) : l.Visits (min hole f.length)

/-- No seek of the loop fails.  That the file system does not report holes is no failure when
the first seek says so. -/
def Layout.Reports (l : Layout f) : Prop :=
  ∀ off < f.length, l.Visits off → l.seekData off ≠ .failed ∧
    (l.seekData off = .unsupported → off = 0) ∧
    ∀ data < f.length, l.seekData off = .found data → ∃ hole, l.seekHole data = .found hole

/-- The loop has come to its end, or a seek has failed. -/
def Ends (l : Layout f) (P : σ → Prop) : Except SeekErr σ → Prop
  | .ok s => P s
  | .error _ => ¬ l.Reports

/-- The bytes up to an offset are those of the file, when the ones not written are zero. -/
def Copied (f out : Bytes) (off : Nat) : Prop := off ≤ f.length ∧ out.rightpad off 0 = f.take off

variable {l : Layout f} {out : Bytes} {off stop n : Nat}

theorem Copied.length_le (h : Copied f out off) : out.length ≤ off := by
  have hlen := congrArg List.length h.2
  rw [rightpad, length_append, length_replicate, length_take] at hlen
  omega

theorem Copied.append (h : Copied f out off) (hn : off + n ≤ f.length) :
    Copied f (out.rightpad off 0 ++ slice f off n) (off + n) := by
  refine ⟨hn, ?_⟩
  rw [h.2, slice, ← take_add, rightpad, length_take, Nat.min_eq_left hn, Nat.sub_self,
    replicate_zero, append_nil]

theorem Copied.pass (h : Copied f out off) (hn : off + n ≤ f.length)
    (hzero : ∀ x ∈ slice f off n, x = 0) :
    Copied f out (off + n) := by
  have hle := h.length_le
  refine ⟨hn, ?_⟩
  rw [take_add, ← h.2, ← slice, eq_replicate_iff.mpr ⟨length_slice hn, hzero⟩, rightpad, rightpad,
    append_assoc, replicate_append_replicate]
  congr 2
  omega

theorem Copied.block (h : Copied f out off) (hn : off + n ≤ f.length) :
    Copied f (if slice f off n = replicate n 0 then out else writeAt out off (slice f off n))
      (off + n) := by
  split_ifs with hzero
  · exact h.pass hn (eq_replicate_iff.mp hzero).2
  · have hle := h.length_le
    rw [writeAt, take_of_length_le hle, drop_of_length_le (by omega), append_nil]
    exact h.append hn

theorem Copied.copyBlocks (h : Copied f out off) (hle : off ≤ stop) (hstop : stop ≤ f.length) :
    Copied f (copyBlocks f off stop out) stop := by
  fun_induction Disk.copyBlocks f off stop out with
  | case1 off out hlt n buf ih => exact ih (h.block (by omega)) (by omega)
  | case2 off out hge => rwa [← Nat.le_antisymm hle (not_lt.mp hge)]

theorem hashZeros_eq (h : Bytes) (n : Nat) : hashZeros h n = h ++ replicate n 0 := by
  fun_induction hashZeros h n with
  | case1 h n hpos ih =>
    rw [ih, append_assoc, replicate_append_replicate]
    congr 2
    omega
  | case2 h n hzero => rw [Nat.eq_zero_of_not_pos hzero, replicate_zero, append_nil]

/-- What holds along the file when a range is handled, and when zeros are passed over, holds
at its end. -/
theorem forEachDataRange_ends {fn : Nat → Nat → σ → σ} {P : Nat → σ → Prop} {s : σ}
    (hpass : ∀ i n s, i + n ≤ f.length → (∀ x ∈ slice f i n, x = 0) → P i s → P (i + n) s)
    (hfn : ∀ i j s, i ≤ j → j ≤ f.length → P i s → P j (fn i j s)) (hoff : off ≤ f.length)
    (hvisits : l.Visits off) (hs : P off s) :
    Ends l (P f.length) (forEachDataRange l fn off s) := by
  have hrest : ∀ off s, off ≤ f.length → (∀ x ∈ f.drop off, x = 0) → P off s → P f.length s := by
    intro off s hoff hzero hs
    have hend := hpass off (f.length - off) s (by omega)
      (fun x hx => hzero x (mem_of_mem_take hx)) hs
    rwa [Nat.add_sub_cancel' hoff] at hend
  fun_induction forEachDataRange l fn off s with
  | case1 off s hlt hdata => exact hrest off s hoff (l.noData hdata) hs
  | case2 s hlt hdata => exact hfn 0 _ s hoff (Nat.le_refl _) hs
  | case3 off s hlt hdata hne => exact fun hall => hne ((hall off hlt hvisits).2.1 hdata)
  | case4 off s hlt hdata => exact fun hall => (hall off hlt hvisits).1 hdata
  | case5 off s hlt data hdata hge =>
    refine hrest off s hoff (fun x hx => (l.found hdata).2 x ?_) hs
    rwa [slice, take_of_length_le (by rw [length_drop]; omega)]
  | case6 off s hlt data hdata hge hole hhole ih =>
    obtain ⟨hle, hzero⟩ := l.found hdata
    have hdata' := hpass off (data - off) s (by omega) hzero hs
    rw [Nat.add_sub_cancel' hle] at hdata'
    have hlt' := l.hole hdata hhole
    exact ih (by omega) (hvisits.next hdata hhole) (hfn data _ s (by omega) (by omega) hdata')
  | case7 off s hlt data hdata hge hhole =>
    intro hall
    obtain ⟨hole, heq⟩ := (hall off hlt hvisits).2.2 data (not_le.mp hge) hdata
    exact hhole hole heq
  | case8 off s hge => rwa [← Nat.le_antisymm hoff (not_lt.mp hge)]

theorem Ends.map {τ : Type*} {P : σ → Prop} {Q : τ → Prop} {g : σ → τ} {r : Except SeekErr σ}
    (h : Ends l P r) (hg : ∀ s, P s → Q (g s)) : Ends l Q (r.map g) := by
  cases r with
  | ok s => exact hg s h
  | error err => exact h

theorem sparseCopy_ends (l : Layout f) : Ends l (· = f) (sparseCopy l) := by
  have hend : Ends l (Copied f · f.length) (forEachDataRange l (copyBlocks f) 0 []) :=
    forEachDataRange_ends (P := fun off out => Copied f out off)
      (fun _ _ _ hn hzero h => h.pass hn hzero)
      (fun _ _ _ hle hstop h => h.copyBlocks hle hstop) (Nat.zero_le _) .start ⟨Nat.zero_le _, rfl⟩
  refine hend.map fun out h => ?_
  rw [truncate, take_of_length_le h.length_le, h.2, take_length]

theorem hashFile_ends (sha256 : Bytes → Text) (l : Layout f) :
    Ends l (· = sha256 f) (hashFile sha256 l) := by
  let P (off : Nat) (s : Bytes × Nat) : Prop := s.1.length = s.2 ∧ Copied f s.1 off
  have hrange : ∀ i j s, i ≤ j → j ≤ f.length → P i s → P j (hashRange f i j s) := by
    intro i j s hle hstop h
    have happend := h.2.append (n := j - i) (by omega)
    rw [Nat.add_sub_cancel' hle] at happend
    rw [hashRange, hashZeros_eq, ← h.1]
    refine ⟨Nat.le_antisymm happend.length_le ?_, happend⟩
    rw [length_append, length_append, length_replicate, length_slice (by omega)]
    omega
  have hend : Ends l (P f.length) (forEachDataRange l (hashRange f) 0 ([], 0)) :=
    forEachDataRange_ends (fun _ _ _ hn hzero h => ⟨h.1, h.2.pass hn hzero⟩) hrange (Nat.zero_le _)
      .start ⟨rfl, Nat.zero_le _, rfl⟩
  refine hend.map fun s h => ?_
  rw [hashZeros_eq, ← h.1]
  exact congrArg sha256 (h.2.2.trans take_length)

/-- The size of a boot disk of an image of `size` bytes. -/
def bootSize (size : Nat) (minSize : Int) : Nat :=
  if minSize ≤ size then size
  else ((minSize + diskSizeAlign - 1) / diskSizeAlign * diskSizeAlign).toNat

theorem extendDisk_eq {disk : Bytes} {minSize : Int} (h : extendDisk f minSize = .ok disk) :
    disk = f ++ replicate (bootSize f.length minSize - f.length) 0 := by
  have hself : f = f ++ replicate (f.length - f.length) 0 := by simp
  unfold extendDisk at h
  rw [bootSize]
  split_ifs at h with hnonpos hle hwrap
  · rw [if_pos (by omega)]
    cases h
    exact hself
  · rw [if_pos hle]
    cases h
    exact hself
  · cases h
    rw [if_neg hle, truncate, take_of_length_le, rightpad]
    simp only [diskSizeAlign] at hwrap ⊢
    omega

/-- Copies and hashes are those of the file's bytes, and the disk is the image, with zeros up to
the next multiple of 512 KiB if it is smaller than requested; a digest that was not trusted
is that of the image. -/
theorem boot_disk_bytes (sha256 : Bytes → Text) (l : Layout f) (cloned : Bool)
    (layout : ∀ f, Layout f) (digest : Text) (minSize : Int) (trusted : Option Bool) :
    Ends l (· = f) (sparseCopy l) ∧ Ends l (· = sha256 f) (hashFile sha256 l) ∧
      ∀ disk, prepareBootDisk sha256 l cloned layout digest minSize trusted = .ok disk →
        disk = f ++ replicate (bootSize f.length minSize - f.length) 0 ∧
          (digest = [] ∨ trusted = some true ∨ sha256 f = digest) := by
  refine ⟨sparseCopy_ends l, hashFile_ends sha256 l, fun disk h => ?_⟩
  have hcopy : ∀ copy, (if cloned then .ok f else sparseCopy l) = .ok copy → copy = f := by
    intro copy hcopy
    have hends := sparseCopy_ends l
    split_ifs at hcopy
    · cases hcopy
      rfl
    · rwa [hcopy] at hends
  unfold prepareBootDisk at h
  split at h
  · cases h
  · next copy heq =>
    obtain rfl := hcopy copy heq
    split_ifs at h with hverify
    · have hends := hashFile_ends sha256 (layout copy)
      split at h
      · cases h
      · next got hgot =>
        rw [hgot] at hends
        split_ifs at h with hne
        exact ⟨extendDisk_eq h, .inr (.inr (hends.symm.trans (not_not.mp hne)))⟩
    · rw [not_and_or, not_not, not_not] at hverify
      exact ⟨extendDisk_eq h, hverify.imp_right .inl⟩

theorem Ends.of_reports {P : σ → Prop} {r : Except SeekErr σ} (h : Ends l P r) (hl : l.Reports) :
    ∃ s, r = .ok s ∧ P s := by
  cases r with
  | ok s => exact ⟨s, rfl, h⟩
  | error err => exact absurd hl h

/-- A file system that does not report holes. -/
def plain (f : Bytes) : Layout f :=
  ⟨fun _ => .unsupported, fun _ => .failed, by simp, by simp, by simp⟩

theorem reports_plain (f : Bytes) : (plain f).Reports := by
  intro off _ hvisits
  cases hvisits with
  | start => simp [plain]
  | next _ hdata => cases hdata

/-- An image with a hole between its first and its last byte. -/
def image : Bytes := [1, 0, 0, 2]

def sparse : Layout image where
  seekData off := if off = 0 then .found 0 else if off < 4 then .found 3 else .noData
  seekHole off := .found (if off = 0 then 1 else if off = 3 then 4 else off)
  found {off data} h := by
    split_ifs at h with hzero hlt
    · cases h
      subst hzero
      simp [slice]
    · cases h
      interval_cases off <;> simp [slice, image] at *
  noData {off} h := by
    split_ifs at h with hzero hlt
    rw [drop_of_length_le (not_lt.mp hlt)]
    nofun
  hole {off data hole} hdata h := by
    split_ifs at hdata <;> cases hdata <;> cases h <;> decide

theorem reports_sparse : sparse.Reports := by
  intro off hlt _
  refine ⟨?_, ?_, fun data _ _ => ⟨_, rfl⟩⟩ <;> simp only [sparse] <;> split_ifs <;> simp

/-- The image is copied around its hole, the copy is verified, and five bytes are asked for. -/
theorem boot_disk_bytes_larger :
    prepareBootDisk sampleSha256Hex sparse false plain (sampleSha256Hex image) 5 none =
      .ok (image ++ replicate (2 ^ 19 - 4) 0) := by
  obtain ⟨hcopy, -, hbytes⟩ :=
    boot_disk_bytes sampleSha256Hex sparse false plain (sampleSha256Hex image) 5 none
  obtain ⟨_, hcopy, rfl⟩ := hcopy.of_reports reports_sparse
  obtain ⟨_, hhash, rfl⟩ :=
    (hashFile_ends sampleSha256Hex (plain image)).of_reports (reports_plain image)
  obtain ⟨disk, hdisk⟩ : ∃ disk, prepareBootDisk sampleSha256Hex sparse false plain
      (sampleSha256Hex image) 5 none = .ok disk := by
    simp only [prepareBootDisk, hcopy, Bool.false_eq_true, if_false, hhash]
    exact ⟨_, rfl⟩
  rw [hdisk, (hbytes disk hdisk).1]
  rfl

/-- The image has one byte, and two are asked for. -/
theorem boot_disk_rounded :
    ∃ disk, prepareBootDisk (fun _ => []) (plain [1]) true plain [] 2 none = .ok disk ∧
      disk.length = 2 ^ 19 := by
  refine ⟨truncate [1] (2 ^ 19), rfl, ?_⟩
  rw [truncate, rightpad, length_append, length_replicate]
  rfl

end Jerboa.Boot.Disk
