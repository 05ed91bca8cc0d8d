import Jerboa.Lib.Bytes
import Jerboa.Lib.Except
import Jerboa.Naming
import Mathlib.Data.List.AList

/-!
# Image manifests

The manifest of a disk image, the checks `image.Parse` makes of one, and the
spelling of digests.  As for the VM stores, a stored manifest is represented by
the value its JSON decodes to.
-/

namespace Jerboa.Image

open Lib Net.Address Naming

def schemaVersion : Int := 1

/-- `Manifest`.  `Extra` is the rest of it (`Packages`, `Created`, `Config`),
which the store carries and never looks at. -/
structure Manifest (Extra : Type) where
  platform : Text
  architecture : Text
  schemaVersion : Int
  name : Text
  tag : Text
  diskDigest : Text
  diskSize : Int
  layout : Text
  recipe : Text
  extra : Extra
deriving DecidableEq

def refText (name tag : Text) : Text := name ++ ':' :: tag

variable {Extra : Type}

def Manifest.ref (m : Manifest Extra) : Text := refText m.name m.tag

/-- The errors of `validate`, in the order they are checked. -/
inductive ManifestErr where
  | unsupportedArchitecture
  | unsupportedPlatform
  | contradictoryPlatform
  | unsupportedSchemaVersion
  | nameRequired
  | tagRequired
  | diskDigestRequired
  | diskDigestPrefix
  | diskSizeNotPositive
  | unsupportedLayout
deriving DecidableEq, Repr

def architectures : List Text := [[], "amd64".toList, "x86_64".toList, "arm64".toList]

def platforms : List Text := ["linux/arm64".toList, "linux/amd64".toList]

def layouts : List Text := [[], "compact".toList]

def digestPrefix : Text := "sha256:".toList

def platformArchitecture (architecture : Text) : Text :=
  if architecture = [] ∨ architecture = "x86_64".toList then "amd64".toList else architecture

def validate (m : Manifest Extra) : Except ManifestErr Unit :=
  if m.architecture ∉ architectures then .error .unsupportedArchitecture
  else if m.platform ≠ [] ∧ m.platform ∉ platforms then .error .unsupportedPlatform
  else if m.platform ≠ [] ∧
      m.platform ≠ "linux/".toList ++ platformArchitecture m.architecture then
    .error .contradictoryPlatform
  else if m.schemaVersion ≠ Image.schemaVersion then .error .unsupportedSchemaVersion
  else if m.name = [] then .error .nameRequired
  else if m.tag = [] then .error .tagRequired
  else if m.diskDigest = [] then .error .diskDigestRequired
  else if byteLen m.diskDigest < 8 ∨ ¬digestPrefix <+: m.diskDigest then
    .error .diskDigestPrefix
  else if m.diskSize ≤ 0 then .error .diskSizeNotPositive
  else if m.layout ∉ layouts then .error .unsupportedLayout
  else .ok ()

def stripPrefix (digest : Text) : Text :=
  if digestPrefix <+: digest then digest.drop digestPrefix.length else digest

def isSHA256Hex (s : Text) : Bool :=
  byteLen s = 64 && s.all fun c => ('0' ≤ c && c ≤ '9') || ('a' ≤ c && c ≤ 'f')

/-- `"sha256:" + sha`. -/
def digestText (sha : Text) : Text := digestPrefix ++ sha

@[simp] theorem stripPrefix_digestText (sha : Text) : stripPrefix (digestText sha) = sha := by
  unfold stripPrefix digestText
  rw [if_pos (List.prefix_append _ _), List.drop_left]

theorem validate_rename {m : Manifest Extra} (hm : validate m = .ok ()) {name tag : Text}
    (hname : name ≠ []) (htag : tag ≠ []) (recipe : Text) :
    validate { m with name := name, tag := tag, recipe := recipe } = .ok () := by
  simp only [validate, ite_error_eq_ok] at hm ⊢
  obtain ⟨harch, hplat, hcontra, hschema, -, -, hdigest, hpre, hsize, hlayout, -⟩ := hm
  exact ⟨harch, hplat, hcontra, hschema, hname, htag, hdigest, hpre, hsize, hlayout, trivial⟩

theorem name_ne_nil_of_validate {m : Manifest Extra} (hm : validate m = .ok ()) :
    m.name ≠ [] ∧ m.tag ≠ [] := by
  simp only [validate, ite_error_eq_ok] at hm
  obtain ⟨-, -, -, -, hname, htag, -⟩ := hm
  exact ⟨hname, htag⟩

/-- SHA-256 of the bytes that the witnesses hash; any other input is taken for the empty one. -/
def sampleSha256Hex (b : Bytes) : Text :=
  if b = [1, 2] then
    "a12871fee210fb8619291eaea194581cbd2531e4b23759d225f6806923f63222".toList
  else if b = [1] then
    "4bf5122f344554c53bde2ebb8cd2b7e3d1600ad631c385a5d7cce23c7785459a".toList
  else if b = [1, 0, 0, 2] then
    "b8c177e7f68d7e3bb1af685a154e213b3a35e4ef97c353788306539653026357".toList
  else if b = [104, 105] then
    "8f434346648f6b96df89dda901c5176b10a6d83961dd3c1ac88b59b2dc327aa4".toList
  else "e3b0c44298fc1c149afbf4c8996fb92427ae41e4649b934ca495991b7852b855".toList

theorem isSHA256Hex_sample (b : Bytes) : isSHA256Hex (sampleSha256Hex b) = true := by
  unfold sampleSha256Hex
  split_ifs <;> decide +kernel

end Jerboa.Image
