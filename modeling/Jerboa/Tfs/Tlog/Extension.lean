import Mathlib.Data.List.Basic

/-!
# Log extensions

The TFS log is a chain of extensions.  Each one is staged in memory as a
sequence of frames; a flush writes whole sectors, from the one that holds the
old end to the new end.  `logWriteInternal` cuts the staged tuples into frames
and opens a new extension whenever less than the minimum is left in the current
one.  The bytes of the tuples are a parameter: nothing here looks at them.
-/

namespace Jerboa.Tfs.Tlog

def sectorSize : Nat := 512

def initialSize : Nat := sectorSize

def defaultExtensionSize : Nat := 512 * 1024

def maxVarintSize : Nat := 10

def extensionLinkBytes : Nat := 1 + 2 * maxVarintSize

def tupleAvailableHeaderSize : Nat := 1 + 2 * maxVarintSize

def tupleAvailableMinSize : Nat := tupleAvailableHeaderSize + 32

/-- The number of bytes `push_varint` writes: one for every seven bits. -/
def varintSize (x : Nat) : Nat := x.log2 / 7 + 1

/-- The on-disk formats a volume that is written to can have. -/
inductive Version where
  | v5
  | v6
deriving DecidableEq, Repr

def Version.number : Version → Nat
  | .v5 => 5
  | .v6 => 6

/-! ## Frames -/

inductive Frame (β : Type*) where
  /-- What `log_read` found in the extension when the volume was mounted. -/
  | replayed (length : Nat)
  /-- `log_extension_init`.  `volume` is the uuid and the label, in the first
  extension only. -/
  | header (version : Version) (span : Nat) (volume : List UInt8)
  /-- TUPLE_AVAILABLE: the first piece of a tuple of `total` bytes. -/
  | available (total : Nat) (data : List β)
  | extended (data : List β)
  | link (start span : Nat)
deriving Repr

namespace Frame

variable {β : Type*}

def size : Frame β → Nat
  | replayed length => length
  | header version span volume => 6 + varintSize version.number + varintSize span + volume.length
  | available total data => 1 + varintSize total + varintSize data.length + data.length
  | extended data => 1 + varintSize data.length + data.length
  | link start span => 1 + varintSize start + varintSize span

/-- The bytes of tuples in a frame. -/
def data : Frame β → List β
  | available _ data => data
  | extended data => data
  | _ => []

end Frame

def totalLength : List Nat → Nat
  | [] => 0
  | n :: ns => n + totalLength ns

@[simp] theorem totalLength_append (ms ns : List Nat) :
    totalLength (ms ++ ns) = totalLength ms + totalLength ns := by
  induction ms with
  | nil => simp [totalLength]
  | cons m ms ih =>
    simp only [List.cons_append, totalLength, ih]
    omega

def framesSize {β : Type*} (fs : List (Frame β)) : Nat := totalLength (fs.map Frame.size)

/-- The frames that lie behind the byte `start`, the first one of the list being
at `pos`. -/
def framesFrom {β : Type*} (start : Nat) : Nat → List (Frame β) → List (Frame β)
  | _, [] => []
  | pos, f :: fs => if start ≤ pos then f :: fs else framesFrom start (pos + f.size) fs

/-- An extension with its staging buffer.  `written` is the buffer's start: the
next storage write begins there. -/
structure Ext (β : Type*) where
  start : Nat
  span : Nat
  frames : List (Frame β)
  written : Nat
  oldEncoding : Bool
deriving Repr

/-- A storage write of an extension: the bytes `[first, last)` of it, with the
tuple bytes of the frames in that range. -/
structure Write (β : Type*) where
  sector : Nat
  first : Nat
  last : Nat
  data : List β
deriving Repr

namespace Ext

variable {β : Type*}

/-- `log_size`. -/
def size (e : Ext β) : Nat := e.span * sectorSize

def stop (e : Ext β) : Nat := framesSize e.frames

def push (e : Ext β) (f : Frame β) : Ext β := { e with frames := e.frames ++ [f] }

def unwritten (e : Ext β) : List β := (framesFrom e.written 0 e.frames).flatMap Frame.data

/-- The storage write of `flush_log_extension`, the end mark included. -/
def flush (e : Ext β) : Write β where
  sector := e.start
  first := e.written
  last := e.written + (e.stop + 1 - e.written + (sectorSize - 1)) / sectorSize * sectorSize
  data := e.unwritten

/-- `flush_log_extension` leaves the next write to begin at the sector that
holds the end of the log. -/
def advance (e : Ext β) : Ext β := { e with written := e.stop - e.stop % sectorSize }

/-- `open_log_extension` and `log_extension_init`. -/
def init (version : Version) (start span : Nat) (volume : List UInt8) : Ext β where
  start := start
  span := span
  frames := [.header version span volume]
  written := 0
  oldEncoding := false

def full (e : Ext β) : Bool :=
  e.size ≤ e.stop + (extensionLinkBytes + tupleAvailableMinSize) || e.oldEncoding

def WF (e : Ext β) : Prop := e.written ≤ e.stop

end Ext

/-- An extension that was closed: its header write is under way, and
`log_extend_link` will link `old` to the new one. -/
structure Link (β : Type*) where
  old : Ext β
  header : Write β
  start : Nat
  span : Nat
deriving Repr

/-- What `log_write_internal` works on: the current extension, the tuple bytes
not yet in a frame, the offsets that `filesystem_reserve_log_space` can still
give, and the extensions closed so far. -/
structure Staging (β : Type*) where
  ext : Ext β
  tuples : List β
  space : List Nat
  links : List (Link β)
deriving Repr

namespace Staging

variable {β : Type*} (version : Version)

def logExtend (st : Staging β) : Option (Staging β) :=
  match st.space with
  | [] => none
  | start :: space =>
    let span := defaultExtensionSize / sectorSize
    let ext : Ext β := .init version start span []
    some { st with
      ext := ext.advance
      space := space
      links := st.links ++ [⟨st.ext, ext.flush, start, span⟩] }

def makeRoom (st : Staging β) : Option (Staging β) :=
  if st.ext.full then st.logExtend version else some st

/-- The next piece of a tuple of which `remaining` bytes are left. -/
def pushPiece (st : Staging β) (first : Bool) (remaining length : Nat) : Staging β :=
  let data := st.tuples.take length
  { st with
    ext := st.ext.push (if first then .available remaining data else .extended data)
    tuples := st.tuples.drop length }

def pieceLength (st : Staging β) (remaining : Nat) : Nat :=
  min (st.ext.size - (st.ext.stop + extensionLinkBytes + tupleAvailableHeaderSize)) remaining

/-- The inner loop of `log_write_internal`.  Every round moves a byte at least,
so `remaining` rounds are enough. -/
def writeTuple : Nat → Bool → Nat → Staging β → Staging β × Bool
  | 0, _, _, st => (st, true)
  | fuel + 1, first, remaining, st =>
    match st.makeRoom version with
    | none => (st, false)
    | some st =>
      let length := st.pieceLength remaining
      let st := st.pushPiece first remaining length
      if remaining - length = 0 then (st, true)
      else writeTuple fuel false (remaining - length) st

/-- `log_write_internal`: every tuple in turn, until an extension fails. -/
def logWriteInternal : List Nat → Staging β → Staging β × Bool
  | [], st => (st, true)
  | length :: lengths, st =>
    match writeTuple version length true length st with
    | (st, true) => logWriteInternal lengths st
    | (st, false) => (st, false)

/-- The tuple bytes that the storage writes still to come will cover. -/
def carried (st : Staging β) : List β :=
  st.links.flatMap (fun k => k.old.unwritten) ++ st.ext.unwritten

structure WF (st : Staging β) : Prop where
  ext : st.ext.WF
  links : ∀ k ∈ st.links, k.old.WF

end Staging

/-! ## Nothing staged is left out of the next writes -/

section Lemmas

variable {β : Type*} {version : Version}

theorem framesFrom_append {start pos : Nat} {fs : List (Frame β)} (gs : List (Frame β))
    (h : start ≤ pos + framesSize fs) :
    framesFrom start pos (fs ++ gs) = framesFrom start pos fs ++ gs := by
  induction fs generalizing pos with
  | nil =>
    have hpos : start ≤ pos := by
      simpa [framesSize, totalLength] using h
    cases gs with
    | nil => rfl
    | cons => simp [framesFrom, hpos]
  | cons f fs ih =>
    simp only [List.cons_append, framesFrom]
    split_ifs with hstart
    · rfl
    · apply ih
      simp only [framesSize, List.map_cons, totalLength] at h ⊢
      omega

namespace Ext

variable {e : Ext β}

@[simp] theorem stop_push (e : Ext β) (f : Frame β) : (e.push f).stop = e.stop + f.size := by
  simp [stop, push, framesSize, totalLength]

theorem WF.push (h : e.WF) (f : Frame β) : (e.push f).WF := by
  have hstop := stop_push e f
  unfold WF at h ⊢
  change e.written ≤ (e.push f).stop
  omega

theorem WF.unwritten_push (h : e.WF) (f : Frame β) :
    (e.push f).unwritten = e.unwritten ++ f.data := by
  have hstart : e.written ≤ 0 + framesSize e.frames := by
    simpa [WF, stop] using h
  simp [unwritten, Ext.push, framesFrom_append [f] hstart]

theorem wf_advance (e : Ext β) : e.advance.WF :=
  Nat.sub_le _ _

theorem not_full_init (start : Nat) :
    (init version start (defaultExtensionSize / sectorSize) [] : Ext β).advance.full = false := by
  cases version <;> rfl

end Ext

namespace Staging

variable {st st' : Staging β}

theorem WF.makeRoom (h : st.WF) (hroom : st.makeRoom version = some st') :
    st'.WF ∧ st'.tuples = st.tuples ∧ st'.ext.full = false ∧
      ∀ b ∈ st.carried, b ∈ st'.carried := by
  unfold Staging.makeRoom at hroom
  split_ifs at hroom with hfull
  · unfold logExtend at hroom
    split at hroom
    · cases hroom
    · cases hroom
      refine ⟨⟨Ext.wf_advance _, ?_⟩, rfl, Ext.not_full_init _, ?_⟩
      · intro k hk
        rcases List.mem_append.mp hk with hk | hk
        · exact h.links k hk
        · rw [List.mem_singleton.mp hk]
          exact h.ext
      · intro b hb
        simp only [carried, List.flatMap_append, List.mem_append] at hb ⊢
        exact .inl (hb.imp_right (by simp))
  · cases hroom
    exact ⟨h, rfl, by simpa using hfull, fun b hb => hb⟩

theorem pieceLength_pos {remaining : Nat} (hfull : st.ext.full = false) (h : 0 < remaining) :
    0 < st.pieceLength remaining := by
  have hroom : st.ext.stop + (extensionLinkBytes + tupleAvailableMinSize) < st.ext.size := by
    simp only [Ext.full, Bool.or_eq_false_iff, decide_eq_false_iff_not] at hfull
    omega
  simp only [extensionLinkBytes, tupleAvailableMinSize, tupleAvailableHeaderSize,
    maxVarintSize] at hroom
  simp only [pieceLength, extensionLinkBytes, tupleAvailableHeaderSize, maxVarintSize]
  omega

theorem WF.pushPiece (h : st.WF) (first : Bool) (remaining length : Nat) :
    (st.pushPiece first remaining length).WF ∧
      ∀ b, b ∈ st.tuples.take length ∨ b ∈ st.carried →
        b ∈ (st.pushPiece first remaining length).carried := by
  refine ⟨⟨h.ext.push _, h.links⟩, ?_⟩
  intro b hb
  have hdata : (if first then Frame.available remaining (st.tuples.take length)
      else .extended (st.tuples.take length)).data = st.tuples.take length := by
    split <;> rfl
  simp only [carried, Staging.pushPiece, h.ext.unwritten_push, hdata, List.mem_append] at hb ⊢
  tauto

/-- The `count` next tuple bytes have moved from `st` into the extensions of
`st'`. -/
structure Moved (st st' : Staging β) (count : Nat) : Prop where
  wf : st'.WF
  tuples : st'.tuples = st.tuples.drop count
  carried : ∀ b, b ∈ st.tuples.take count ∨ b ∈ st.carried → b ∈ st'.carried

theorem Moved.trans {st'' : Staging β} {i j : Nat} (h : Moved st st' i) (h' : Moved st' st'' j) :
    Moved st st'' (i + j) := by
  refine ⟨h'.wf, ?_, ?_⟩
  · rw [h'.tuples, h.tuples, List.drop_drop]
  · intro b hb
    apply h'.carried
    rw [List.take_add, List.mem_append, or_right_comm] at hb
    rcases hb with hb | hb
    · exact .inr (h.carried b hb)
    · exact .inl (h.tuples ▸ hb)

theorem moved_writeTuple {fuel remaining : Nat} {first : Bool} (h : st.WF)
    (hfuel : remaining ≤ fuel) (hpos : 0 < remaining)
    (hwrite : writeTuple version fuel first remaining st = (st', true)) :
    Moved st st' remaining := by
  induction fuel generalizing first remaining st with
  | zero => omega
  | succ fuel ih =>
    unfold writeTuple at hwrite
    split at hwrite
    · cases hwrite
    · rename_i mid hroom
      obtain ⟨hmid, htuples, hfull, hkept⟩ := h.makeRoom hroom
      have hlength := pieceLength_pos hfull hpos
      have hle : mid.pieceLength remaining ≤ remaining := Nat.min_le_right _ _
      obtain ⟨hpiece, hcarried⟩ :=
        hmid.pushPiece first remaining (mid.pieceLength remaining)
      have hmoved : Moved st (mid.pushPiece first remaining (mid.pieceLength remaining))
          (mid.pieceLength remaining) := by
        refine ⟨hpiece, by rw [← htuples]; rfl, ?_⟩
        intro b hb
        apply hcarried
        rw [htuples]
        exact hb.imp_right (hkept b)
      dsimp only at hwrite
      split_ifs at hwrite with hdone
      · cases hwrite
        have hall : mid.pieceLength remaining = remaining := by
          omega
        rw [hall] at hmoved ⊢
        exact hmoved
      · have hrest := ih hpiece (by omega) (by omega) hwrite
        have htrans := hmoved.trans hrest
        rwa [Nat.add_sub_cancel' hle] at htrans

theorem moved_logWriteInternal {lengths : List Nat} (h : st.WF) (hpos : ∀ n ∈ lengths, 0 < n)
    (hwrite : logWriteInternal version lengths st = (st', true)) :
    Moved st st' (totalLength lengths) := by
  induction lengths generalizing st with
  | nil =>
    cases hwrite
    refine ⟨h, rfl, ?_⟩
    intro b hb
    simpa [totalLength] using hb
  | cons length lengths ih =>
    unfold logWriteInternal at hwrite
    split at hwrite
    · rename_i mid htuple
      have hfirst := moved_writeTuple h (Nat.le_refl _) (hpos length (by simp)) htuple
      have hrest := ih hfirst.wf (fun n hn => hpos n (by simp [hn])) hwrite
      exact hfirst.trans hrest
    · cases hwrite

end Staging

end Lemmas

end Jerboa.Tfs.Tlog
