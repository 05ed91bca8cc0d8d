import Jerboa.Lib.Bytes
import Jerboa.Lib.Int64
import Jerboa.Naming.Reference

/-!
# Uploads

`DecodeUpload`, which reads a pack and its index and checks one against the
other.  The index is JSON and a frame is compressed with zstd; both decoders are
parameters, and so is the digest.  A number of the index that is no `int64` is
an error of the JSON decoder.
-/

namespace Jerboa.Registry

open List Lib Net.Address

structure Entry where
  digest : Text
  size : Int
  offset : Int
  length : Int
deriving DecidableEq, Repr

def maxSize : Int := 64 * 2 ^ 20

def Entry.stop (e : Entry) : Int := e.offset + e.length

structure Pack where
  digest : Text
  data : List UInt8
  entries : List Entry
deriving DecidableEq

structure Index where
  digest : Text
  size : Int
  blobs : List Entry

/-- What a decoder delivers of a frame: its bytes, and whether it ends after them without an
error. -/
structure Stream where
  bytes : List UInt8
  clean : Bool

structure Codecs where
  digest : List UInt8 → Text
  json : List UInt8 → Option Index
  zstd : List UInt8 → Option Stream

/-- The errors of `DecodeUpload`; the last one is the panic of a slice out of bounds. -/
inductive UploadErr where
  | tooShort
  | indexLength
  | index
  | size (n : Nat)
  | digest
  | notFollowing (digest : Text)
  | twice (digest : Text)
  | sizeOutOfRange (digest : Text) (size : Int)
  | decoder (digest : Text)
  | wrongSize (digest : Text) (n : Nat) (size : Int)
  | wrongDigest (digest : Text)
  | trailing
  | sliceBounds
deriving DecidableEq

def maxIndexBytes : Nat := 16 * 2 ^ 20

def isInt64 (x : Int) : Prop := int64 x = x
deriving Decidable

def sliceOf (data : List UInt8) (lo hi : Int) : Except UploadErr (List UInt8) := do
  throwIf (lo < 0 ∨ hi < lo ∨ hi > data.length) .sliceBounds
  return (data.drop lo.toNat).take (hi - lo).toNat

section Code

variable (c : Codecs)

/-- `CopyBlob`, which returns what it has written.  The reader is limited to one byte
more than the blob should have. -/
def copyBlob (frame : List UInt8) (e : Entry) : Except UploadErr (List UInt8) := do
  throwIf (e.size < 0 ∨ e.size > 2 ^ 31) (.sizeOutOfRange e.digest e.size)
  match c.zstd frame with
  | none => throw (.decoder e.digest)
  | some stream => do
    let out := stream.bytes.take (e.size + 1).toNat
    throwIf (stream.bytes.length ≤ e.size ∧ stream.clean = false) (.decoder e.digest)
    throwIf (out.length ≠ e.size) (.wrongSize e.digest out.length e.size)
    throwIf (c.digest out ≠ e.digest) (.wrongDigest e.digest)
    return out

def readBlob (frame : List UInt8) (e : Entry) : Except UploadErr (List UInt8) := copyBlob c frame e

def verifyEntries (data : List UInt8) :
    Int → List Text → List Entry → Except UploadErr Int
  | next, _, [] => pure next
  | next, seen, e :: es => do
    let stop := int64 (e.offset + e.length)
    throwIf (e.offset ≠ next ∨ e.length ≤ 0 ∨ stop > data.length) (.notFollowing e.digest)
    throwIf (e.digest ∈ seen) (.twice e.digest)
    let frame ← sliceOf data e.offset stop
    let _ ← copyBlob c frame e
    verifyEntries data stop (e.digest :: seen) es

def verify (p : Pack) : Except UploadErr Unit := do
  throwIf (p.data.length = 0 ∨ p.data.length > maxSize) (.size p.data.length)
  throwIf (c.digest p.data ≠ p.digest) .digest
  let next ← verifyEntries c p.data 0 [] p.entries
  throwIf (next ≠ p.data.length) .trailing

def decodeIndex (bytes : List UInt8) : Option Index :=
  (c.json bytes).filter fun idx => idx.blobs.all fun e =>
    isInt64 e.size && isInt64 e.offset && isInt64 e.length

def decodeUpload (body : List UInt8) : Except UploadErr Pack := do
  throwIf (body.length < 4) .tooShort
  let n := Bytes.beNat (body.take 4)
  throwIf (n > maxIndexBytes ∨ n > body.length - 4) .indexLength
  match decodeIndex c ((body.drop 4).take n) with
  | none => throw .index
  | some idx => do
    let p : Pack := ⟨idx.digest, body.drop (4 + n), idx.blobs⟩
    verify c p
    return p

end Code

/-! ## What is accepted -/

/-- The frames of the entries lie one behind the other from `start` to `stop`. -/
def Tiles : Int → List Entry → Int → Prop
  | start, [], stop => start = stop
  | start, e :: es, stop => e.offset = start ∧ 0 < e.length ∧ Tiles e.stop es stop

/-- The frame of an entry. -/
def Pack.frame (p : Pack) (e : Entry) : List UInt8 :=
  (p.data.drop e.offset.toNat).take e.length.toNat

variable {c : Codecs} {data frame out : List UInt8} {e : Entry} {es : List Entry}

/-- The frame decompresses to a blob of the size and the digest of the entry. -/
def Codecs.Holds (c : Codecs) (frame : List UInt8) (e : Entry) (blob : List UInt8) : Prop :=
  c.zstd frame = some ⟨blob, true⟩ ∧ (blob.length : Int) = e.size ∧ c.digest blob = e.digest

theorem copyBlob_eq_ok (h : copyBlob c frame e = .ok out) : c.Holds frame e out := by
  unfold copyBlob at h
  obtain ⟨⟨⟩, hrange, h⟩ := bind_eq_ok.mp h
  rw [throwIf_eq_ok] at hrange
  cases hstream : c.zstd frame with
  | none => simp [hstream] at h
  | some stream =>
    simp only [hstream, bind_eq_ok, throwIf_eq_ok, pure_eq_ok] at h
    obtain ⟨-, hclean, -, hsize, -, hdigest, rfl⟩ := h
    -- less than the limit was read, so that the stream has ended
    have hlen := length_take (i := (e.size + 1).toNat) (l := stream.bytes)
    have hall : stream.bytes.take (e.size + 1).toNat = stream.bytes :=
      take_of_length_le (by omega)
    rw [hall] at hsize hdigest ⊢
    refine ⟨?_, by omega, not_not.mp hdigest⟩
    cases stream with
    | mk bytes clean =>
      have : clean = true := by
        by_contra hfalse
        exact hclean ⟨by simpa using (not_not.mp hsize).le, Bool.eq_false_iff.mpr hfalse⟩
      rw [hstream, this]

theorem int64_eq_of_slice {x lo hi : Int} (hx : 0 ≤ x) (hbound : x < 2 ^ 63 + maxSize)
    (hlo : 0 ≤ lo) (hle : lo ≤ int64 x) (hhi : int64 x ≤ hi) (hmax : hi ≤ maxSize) :
    int64 x = x := by
  obtain ⟨k, hk⟩ : ((2 ^ 64 : Nat) : Int) ∣ int64 x - x := Int.dvd_bmod_sub_self
  simp only [maxSize] at hbound hmax
  omega

theorem verifyEntries_eq_ok {next stop : Int} {seen : List Text} (hnext : 0 ≤ next)
    (hle : next ≤ data.length) (hmax : (data.length : Int) ≤ maxSize)
    (hint : ∀ e ∈ es, isInt64 e.length) (h : verifyEntries c data next seen es = .ok stop) :
    Tiles next es stop ∧ stop ≤ data.length ∧ (es.map (·.digest)).Nodup ∧
      (∀ e ∈ es, e.digest ∉ seen) ∧
        ∀ e ∈ es, ∃ blob, copyBlob c ((data.drop e.offset.toNat).take e.length.toNat) e =
          .ok blob := by
  induction es generalizing next seen with
  | nil =>
    cases h
    exact ⟨rfl, hle, nodup_nil, by simp, by simp⟩
  | cons e es ih =>
    rw [forall_mem_cons] at hint
    simp only [verifyEntries, sliceOf, bind_eq_ok, throwIf_eq_ok, pure_eq_ok, not_or, not_not] at h
    obtain ⟨-, ⟨rfl, hpos, hend⟩, -, hseen, frame, ⟨-, ⟨hlo, hhi, -⟩, rfl⟩, blob, hcopy, h⟩ := h
    have hlength : e.length < 2 ^ 63 := by
      rw [← hint.1]
      exact Int.bmod_lt (by decide)
    have hstop : int64 (e.offset + e.length) = e.stop :=
      int64_eq_of_slice (by omega) (by omega) hnext (by omega) (by omega) hmax
    rw [hstop] at h hend hcopy
    obtain ⟨htiles, hbound, hnodup, hfresh, hall⟩ :=
      ih (by simp only [Entry.stop]; omega) (by omega) hint.2 h
    rw [Entry.stop, add_sub_cancel_left] at hcopy
    simp only [mem_cons, not_or] at hfresh
    refine ⟨⟨rfl, by omega, htiles⟩, hbound, nodup_cons.mpr ⟨fun hmem => ?_, hnodup⟩,
      forall_mem_cons.mpr ⟨hseen, fun e' he' => (hfresh e' he').2⟩,
      forall_mem_cons.mpr ⟨⟨blob, hcopy⟩, hall⟩⟩
    obtain ⟨e', he', heq⟩ := mem_map.mp hmem
    exact (hfresh e' he').1 heq

theorem flatMap_of_tiles {start stop : Int} (h : Tiles start es stop) (hstart : 0 ≤ start)
    (hstop : stop = data.length) :
    (es.flatMap fun e => (data.drop e.offset.toNat).take e.length.toNat) =
      data.drop start.toNat := by
  induction es generalizing start with
  | nil =>
    rw [flatMap_nil, drop_of_length_le]
    have : start = stop := h
    omega
  | cons e es ih =>
    obtain ⟨rfl, hpos, h⟩ := h
    have hnext : e.stop.toNat = e.offset.toNat + e.length.toNat := by
      rw [Entry.stop]
      omega
    rw [flatMap_cons, ih h (by rw [Entry.stop]; omega), hnext, ← drop_drop,
      take_append_drop]

/-- An accepted upload is a pack whose frames follow each other from its first byte to
its last, each under a digest of its own, and `ReadBlob` takes out of every frame
the blob of the size and the digest that the index states. -/
theorem upload_sound (c : Codecs) (body : List UInt8) (p : Pack)
    (h : decodeUpload c body = .ok p) :
    Tiles 0 p.entries p.data.length ∧ p.entries.flatMap p.frame = p.data ∧
      (p.entries.map (·.digest)).Nodup ∧
        ∀ e ∈ p.entries, ∃ blob, c.Holds (p.frame e) e blob ∧
          readBlob c (p.frame e) e = .ok blob := by
  unfold decodeUpload at h
  obtain ⟨-, -, h⟩ := bind_eq_ok.mp h
  obtain ⟨-, -, h⟩ := bind_eq_ok.mp h
  split at h
  · exact (throw_ne_ok.mp h).elim
  · next idx hidx =>
    obtain ⟨⟨⟩, hverify, hp⟩ := bind_eq_ok.mp h
    have hint := (Option.filter_eq_some_iff.mp hidx).2
    cases hp
    simp only [verify, bind_eq_ok, throwIf_eq_ok, not_or, not_not] at hverify
    obtain ⟨-, ⟨-, hmax⟩, -, -, stop, hloop, rfl⟩ := hverify
    simp only [all_eq_true, Bool.and_eq_true, decide_eq_true_eq] at hint
    obtain ⟨htiles, -, hnodup, -, hall⟩ := verifyEntries_eq_ok (le_refl 0) (Int.natCast_nonneg _)
      (not_lt.mp hmax) (fun e he => (hint e he).2) hloop
    refine ⟨htiles, flatMap_of_tiles htiles (le_refl 0) rfl, hnodup, fun e he => ?_⟩
    obtain ⟨blob, hcopy⟩ := hall e he
    exact ⟨blob, copyBlob_eq_ok hcopy, hcopy⟩

/-- The zstd frame of `hi`: a header, and one block that is not compressed. -/
def hiFrame : List UInt8 := [0x28, 0xb5, 0x2f, 0xfd, 0x20, 2, 0x11, 0, 0, 104, 105]

def aFrame : List UInt8 := [0x28, 0xb5, 0x2f, 0xfd, 0x20, 1, 0x09, 0, 0, 97]

def hiDigest : Text :=
  "sha256:8f434346648f6b96df89dda901c5176b10a6d83961dd3c1ac88b59b2dc327aa4".toList

def aDigest : Text :=
  "sha256:ca978112ca1bbdcafac231b39a23dc4da786eff8147c4e72b9807785afee48bb".toList

def twoBlobs : Pack where
  digest := "sha256:5f06fdccfc823991d0eb362782d2bc27068c52b9766f645a9a949f3fa6abc6c6".toList
  data := hiFrame ++ aFrame
  entries := [⟨hiDigest, 2, 0, 11⟩, ⟨aDigest, 1, 11, 10⟩]

/-- The index of `twoBlobs`, as `EncodeUpload` prints it. -/
def twoBlobsIndex : List UInt8 :=
  let q : Text := "\"".toList
  let blob (digest : Text) (rest : String) : Text :=
    "\x7b\"digest\":\"".toList ++ digest ++ q ++ rest.toList ++ "\x7d".toList
  let text := "\x7b\"digest\":\"".toList ++ twoBlobs.digest ++ q ++
    ",\"size\":21,\"blobs\":[".toList ++
    blob hiDigest ",\"size\":2,\"offset\":0,\"length\":11" ++ [','] ++
    blob aDigest ",\"size\":1,\"offset\":11,\"length\":10" ++ "]\x7d".toList
  text.map fun c => UInt8.ofNat c.toNat

/-- SHA-256, the JSON decoder and zstd on what the upload of `twoBlobs` has them read. -/
def sampleCodecs : Codecs where
  digest bytes :=
    if bytes = twoBlobs.data then twoBlobs.digest
    else if bytes = [104, 105] then hiDigest
    else if bytes = [97] then aDigest
    else []
  json bytes :=
    if bytes = twoBlobsIndex then some ⟨twoBlobs.digest, 21, twoBlobs.entries⟩ else none
  zstd frame :=
    if frame = hiFrame then some ⟨[104, 105], true⟩
    else if frame = aFrame then some ⟨[97], true⟩
    else none

def twoBlobsUpload : List UInt8 := [0, 0, 1, 83] ++ twoBlobsIndex ++ twoBlobs.data

theorem upload_sound_two :
    decodeUpload sampleCodecs twoBlobsUpload = .ok twoBlobs ∧
      Tiles 0 twoBlobs.entries twoBlobs.data.length := by
  have h : decodeUpload sampleCodecs twoBlobsUpload = .ok twoBlobs := by decide +kernel
  exact ⟨h, (upload_sound sampleCodecs _ twoBlobs h).1⟩

end Jerboa.Registry
