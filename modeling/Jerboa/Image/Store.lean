import Jerboa.Image.Manifest
import Jerboa.Lib.Run
import Jerboa.Lib.Table

/-!
# The image store

The content-addressable store of package `image`: a directory per disk, named
by the SHA-256 of the disk, with the disk, its manifest, a manifest per
`name:tag` and a record of the last verification, and beside the directories
the index `refs.json` from `name:tag` to directory.

A call reads the store, and either refuses or makes a list of changes to the
directory tree (`plan`).  A call that completes makes all of them, and one that
fails or crashes part way makes the first few (`Action`).  Files written
through `writeFileAtomic` are written whole or not at all; a disk that is being
copied can be left cut short.  The index is written by `os.WriteFile`, which is
not atomic: that it is cut short and cannot be parsed any more is left out.
-/

namespace Jerboa.Image

open Net.Address Lib Lib.Run Lib.Table

/-- What the store asks of the outside: the hexadecimal SHA-256, and whether
`fileIdentity` is available, as it is on Unix. -/
structure Host where
  sha256Hex : Bytes → Text
  unix : Bool

/-- A disk file.  `identity` stands for what `fileIdentity` returns of it
(device, inode, size and times), which every change of the file renews. -/
structure DiskFile where
  content : Bytes
  identity : Nat
deriving DecidableEq

structure VerifiedRecord where
  digest : Text
  disk : Nat
deriving DecidableEq

/-- The directory of a disk, with the manifests of its tags by their files. -/
structure ImgDir (Extra : Type) where
  disk : Option DiskFile
  manifest : Option (Manifest Extra)
  tags : AList fun _ : Text => Manifest Extra
  verified : Option VerifiedRecord

def ImgDir.empty {Extra : Type} : ImgDir Extra := ⟨none, none, ∅, none⟩

abbrev Refs := AList fun _ : Text => Text

/-- The directory tree below the root.  `clock` is the identity the next
change of a disk file gives it, and `tagFile` leads from a reference to the file
that the file system finds at its `tagManifestPath`: where it ignores the case of
names, two references can have one file. -/
structure Store (Extra : Type) where
  dirs : AList fun _ : Text => ImgDir Extra
  refs : Refs
  clock : Nat
  tagFile : Text → Text

variable {Extra : Type}

/-- `NewStore` over an empty directory. -/
def Store.new (tagFile : Text → Text) : Store Extra := ⟨∅, ∅, 0, tagFile⟩

namespace Store

def dir (s : Store Extra) (sha : Text) : Option (ImgDir Extra) := s.dirs.lookup sha

def disk (s : Store Extra) (sha : Text) : Option DiskFile := (s.dir sha).bind ImgDir.disk

def manifest (s : Store Extra) (sha : Text) : Option (Manifest Extra) :=
  (s.dir sha).bind ImgDir.manifest

def tagManifest (s : Store Extra) (sha ref : Text) : Option (Manifest Extra) :=
  (s.dir sha).bind fun d => d.tags.lookup (s.tagFile ref)

def verified (s : Store Extra) (sha : Text) : Option VerifiedRecord :=
  (s.dir sha).bind ImgDir.verified

def modify (s : Store Extra) (sha : Text) (f : ImgDir Extra → ImgDir Extra) : Store Extra :=
  match s.dir sha with
  | some d => { s with dirs := s.dirs.insert sha (f d) }
  | none => s

end Store

/-- The errors of the store's calls. -/
inductive StoreErr where
  | notFound (ref : Text)
  | notATag (ref : Text)
  | readManifest (sha : Text)
  | parseManifest (err : ManifestErr)
  | integrityMismatch (ref : Text)
deriving DecidableEq, Repr

/-- Some reference of the index points to the disk. -/
def Refs.Points (refs : Refs) (sha : Text) : Prop := ∃ e ∈ refs.entries, e.2 = sha
deriving Decidable

def matchSHA (needle : Text) : Text → List Text → Option Text
  | found, [] => if found ≠ [] then some found else none
  | found, sha :: rest =>
    if sha = needle ∨ needle <+: sha then
      if found ≠ [] ∧ found ≠ sha then none else matchSHA needle sha rest
    else matchSHA needle found rest

def findBySHA (refs : Refs) (ref : Text) : Option Text :=
  matchSHA (stripPrefix ref) [] (refs.entries.map Sigma.snd)

def latest (ref : Text) : Text := refText ref "latest".toList

/-- `resolveRefName`: the disk of a reference and, where the reference names a
tag, the whole `name:tag`. -/
def resolveRefName (s : Store Extra) (ref : Text) : Except StoreErr (Text × Option Text) :=
  match s.refs.lookup ref with
  | some sha => .ok (sha, some ref)
  | none =>
    match if ':' ∈ ref then none else s.refs.lookup (latest ref) with
    | some sha => .ok (sha, some (latest ref))
    | none =>
      match findBySHA s.refs ref with
      | some sha => .ok (sha, none)
      | none => .error (.notFound ref)

def parse (m : Manifest Extra) : Except StoreErr (Manifest Extra) :=
  match validate m with
  | .ok () => .ok m
  | .error e => .error (.parseManifest e)

def readManifest (s : Store Extra) (sha : Text) : Except StoreErr (Manifest Extra) :=
  match s.manifest sha with
  | some m => parse m
  | none => .error (.readManifest sha)

def splitRef (ref : Text) : Text × Text :=
  ((ref.reverse.dropWhile (· ≠ ':')).tail.reverse, (ref.reverse.takeWhile (· ≠ ':')).reverse)

/-- `readRefManifest`: the manifest of the tag or, for an image without one and
for a reference by digest, the one of the disk. -/
def readRefManifest (s : Store Extra) (sha : Text) :
    Option Text → Except StoreErr (Manifest Extra)
  | none => readManifest s sha
  | some ref =>
    match s.tagManifest sha ref with
    | some m => parse m
    | none =>
      match readManifest s sha with
      | .error e => .error e
      | .ok m =>
        if ':' ∈ ref ∧ (splitRef ref).1 ≠ [] then
          .ok { m with name := (splitRef ref).1, tag := (splitRef ref).2 }
        else .ok m

/-- `Resolve`.  The path it returns is the `disk.img` of the directory. -/
def resolve (s : Store Extra) (ref : Text) : Except StoreErr (Manifest Extra × Text) :=
  match resolveRefName s ref with
  | .error e => .error e
  | .ok (sha, name) =>
    match readRefManifest s sha name with
    | .error e => .error e
    | .ok m =>
      if m.diskDigest ≠ digestText sha then .error (.integrityMismatch ref)
      else .ok (m, sha)

namespace Host

variable (host : Host)

/-- `fileSHA256` of a file that holds `content`. -/
def digest (content : Bytes) : Text := digestText (host.sha256Hex content)

def fileIdentity (f : DiskFile) : Option Nat := if host.unix then some f.identity else none

/-- The record of the last verification is about the file as it is now. -/
def recorded (s : Store Extra) (sha digest : Text) : Bool :=
  match s.verified sha, s.disk sha with
  | some r, some f => r.digest = digest && host.fileIdentity f = some r.disk
  | _, _ => false

def hashes (s : Store Extra) (sha digest : Text) : Bool :=
  match s.disk sha with
  | some f => host.digest f.content = digest
  | none => false

def trusted (s : Store Extra) (sha digest : Text) : Bool :=
  isSHA256Hex (stripPrefix digest) && decide (sha = stripPrefix digest) &&
    (host.recorded s sha digest || host.hashes s sha digest)

def get (s : Store Extra) (ref : Text) : Except StoreErr (Manifest Extra × Text) :=
  match resolve s ref with
  | .error e => .error e
  | .ok (m, sha) =>
    if host.trusted s sha m.diskDigest then .ok (m, sha) else .error (.integrityMismatch ref)

end Host

inductive Effect (Extra : Type) where
  | mkdir (sha : Text)
  /-- The disk file is created with these bytes, or brought to them. -/
  | writeDisk (sha : Text) (content : Bytes)
  | chmod (sha : Text)
  | markVerified (sha digest : Text)
  | verifyDisk (sha digest : Text)
  | writeManifest (sha : Text) (m : Manifest Extra)
  | writeTag (sha ref : Text) (m : Manifest Extra)
  | removeTag (sha ref : Text)
  | writeRefs (refs : Refs)
  | removeAll (sha : Text)

def markVerified (host : Host) (s : Store Extra) (sha digest : Text) : Store Extra :=
  match (s.disk sha).bind host.fileIdentity with
  | some id => s.modify sha fun d => { d with verified := some ⟨digest, id⟩ }
  | none => s

def exec (host : Host) (s : Store Extra) : Effect Extra → Store Extra
  | .mkdir sha => if sha ∈ s.dirs then s else { s with dirs := s.dirs.insert sha .empty }
  | .writeDisk sha content =>
    { s.modify sha fun d => { d with disk := some ⟨content, s.clock⟩ } with
      clock := s.clock + 1 }
  | .chmod sha =>
    { s.modify sha fun d =>
        { d with disk := d.disk.map fun f => { f with identity := s.clock } } with
      clock := s.clock + 1 }
  | .markVerified sha digest => markVerified host s sha digest
  | .verifyDisk sha digest =>
    if host.hashes s sha digest then markVerified host s sha digest else s
  | .writeManifest sha m => s.modify sha fun d => { d with manifest := some m }
  | .writeTag sha ref m => s.modify sha fun d => { d with tags := d.tags.insert (s.tagFile ref) m }
  | .removeTag sha ref => s.modify sha fun d => { d with tags := d.tags.erase (s.tagFile ref) }
  | .writeRefs refs => { s with refs := refs }
  | .removeAll sha => { s with dirs := s.dirs.erase sha }

/-! ## The calls -/

/-- A call of the store.  `Put` copies the disk; `PutMove` renames it or, where
it cannot, copies it too.  A copy passes through every prefix of the disk, and
`copied` is the one it has reached where it is cut short. -/
inductive Call (Extra : Type) where
  | put (name tag : Text) (m : Manifest Extra) (disk : Bytes) (renamed : Bool) (copied : Nat)
  | tag (ref name tag : Text)
  | setRecipe (ref digest : Text)
  | remove (ref : Text)
  | pruneUnreferenced (inUse : Text → Bool)
  | get (ref : Text)

def storedManifest (host : Host) (name tag : Text) (m : Manifest Extra) (disk : Bytes) :
    Manifest Extra :=
  { m with diskDigest := host.digest disk, name := name, tag := tag }

def storeDisk (host : Host) (disk : Bytes) (renamed : Bool) (copied : Nat) :
    List (Effect Extra) :=
  let sha := host.sha256Hex disk
  if renamed then
    [.writeDisk sha disk, .chmod sha, .markVerified sha (host.digest disk)]
  else
    [.writeDisk sha (disk.take copied), .writeDisk sha disk, .chmod sha,
      .verifyDisk sha (host.digest disk)]

def put (host : Host) (s : Store Extra) (name tag : Text) (m : Manifest Extra) (disk : Bytes)
    (renamed : Bool) (copied : Nat) : List (Effect Extra) :=
  let sha := host.sha256Hex disk
  let stored := storedManifest host name tag m disk
  let ref := refText name tag
  .mkdir sha ::
    ((if (s.disk sha).isSome then [] else storeDisk host disk renamed copied) ++
      [.writeManifest sha stored, .writeTag sha ref stored,
        .writeRefs (s.refs.insert ref sha)])

def tag (s : Store Extra) (ref name tag : Text) : Except StoreErr (List (Effect Extra)) :=
  match resolveRefName s ref with
  | .error e => .error e
  | .ok (sha, source) =>
    match readRefManifest s sha source with
    | .error e => .error e
    | .ok m =>
      .ok [.mkdir sha, .writeTag sha (refText name tag) { m with name := name, tag := tag },
        .writeRefs (s.refs.insert (refText name tag) sha)]

def setRecipe (s : Store Extra) (ref digest : Text) : Except StoreErr (List (Effect Extra)) :=
  match resolveRefName s ref with
  | .error e => .error e
  | .ok (_, none) => .error (.notATag ref)
  | .ok (sha, some name) =>
    match readRefManifest s sha (some name) with
    | .error e => .error e
    | .ok m => .ok [.mkdir sha, .writeTag sha name { m with recipe := digest }]

/-- The references a `Remove` deletes from the index: the one it names, or
those of the disk it names by digest. -/
def removedRefs (s : Store Extra) (sha : Text) : Option Text → List Text
  | some ref => [ref]
  | none => (s.refs.entries.filter fun e => e.2 = sha).map Sigma.fst

def remove (s : Store Extra) (ref : Text) : Except StoreErr (List (Effect Extra)) :=
  match resolveRefName s ref with
  | .error e => .error e
  | .ok (sha, name) =>
    let gone := removedRefs s sha name
    let refs : Refs := eraseAll s.refs gone
    .ok (gone.map (.removeTag sha) ++ .writeRefs refs ::
      if refs.Points sha then [] else [.removeAll sha])

def unreferenced (s : Store Extra) (inUse : Text → Bool) : List Text :=
  s.dirs.keys.filter fun sha =>
    isSHA256Hex sha && !decide (s.refs.Points sha) && !inUse (digestText sha)

/-- The verification `Get` makes where the disk was not verified as it is, which
records its success. -/
def verification (host : Host) (s : Store Extra) (ref : Text) : List (Effect Extra) :=
  match resolve s ref with
  | .error _ => []
  | .ok (m, sha) => if host.recorded s sha m.diskDigest then [] else [.verifyDisk sha m.diskDigest]

def plan (host : Host) (s : Store Extra) : Call Extra → Except StoreErr (List (Effect Extra))
  | .put name tag m disk renamed copied => .ok (put host s name tag m disk renamed copied)
  | .tag ref name newTag => tag s ref name newTag
  | .setRecipe ref digest => setRecipe s ref digest
  | .remove ref => remove s ref
  | .pruneUnreferenced inUse => .ok ((unreferenced s inUse).map .removeAll)
  | .get ref => .ok (verification host s ref)

/-- The store after a call that completes, or is refused. -/
def step (host : Host) (s : Store Extra) (c : Call Extra) : Store Extra :=
  match plan host s c with
  | .ok effects => run (exec host) s effects
  | .error _ => s

/-- A call with what becomes of it: it completes, or it fails or crashes after
so many of its changes. -/
structure Action (Extra : Type) where
  call : Call Extra
  cut : Option Nat

/-- The store after a call that completes, is refused, or is cut short. -/
def act (host : Host) (s : Store Extra) (a : Action Extra) : Store Extra :=
  match plan host s a.call with
  | .ok effects =>
    run (exec host) s (match a.cut with
      | none => effects
      | some n => effects.take n)
  | .error _ => s

end Jerboa.Image
