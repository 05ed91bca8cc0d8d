import Jerboa.Ops.Extract
import Jerboa.Package.Files
import Mathlib.Data.Char
import Mathlib.Data.List.Lex
import Mathlib.Data.List.Sort

/-!
# Package verification

`Store.Verify` of package `pkg`: a package's archive is hashed and unpacked, what
lies in its directory is compared with the archive, and the digests are kept for the
next time.  A path is the list of the names below the package's directory, the last
one first.  What `statID` tells of a file is an identity, and every write gives a
file a new one: an identity has one content.
-/

namespace Jerboa.Package

open Lib Lib.Run Net.Address

inductive TarKind where
  | dir
  | reg (bytes : List UInt8) (exec broken : Bool)
  | other

structure TarEntry where
  name : Text
  kind : TarKind

structure Tar where
  opens : Bool
  entries : List TarEntry
  eof : Bool

/-- What is outside of the store: identities with their contents, digests, archives and
programs.  `root` is the place of the package's directory. -/
structure World (ι δ : Type) where
  root : List Text
  hops : Nat
  bytes : ι → List UInt8
  new : Nat → List UInt8 → ι
  bytes_new : ∀ n b, bytes (new n b) = b
  /-- The identity says too little to be trusted by another process. -/
  weak : ι → Bool
  sha : List UInt8 → δ
  untar : List UInt8 → Tar
  elfAccepted : List UInt8 → Text → Bool
  isELF : List UInt8 → Bool
  digestEntries : List (List Text × Bool × δ) → δ

/-- The identity of a file and whether it can be executed. -/
structure Stamp (ι : Type) where
  id : ι
  exec : Bool

structure Index (ι δ : Type) where
  files : List (List Text × ι × δ) := []
  verifiedArchive : Option δ := none

/-- The file system, the digests the process knows, and the index that is saved. -/
structure State (ι δ : Type) where
  tree : Tree Text (Stamp ι)
  clock : Nat := 0
  cache : List ((List Text × ι) × δ) := []
  index : Index ι δ := {}

/-- `Package`, with the fields that `Verify` reads. -/
structure Meta (δ : Type) where
  platform : Text := []
  sha256 : Option δ := none
  contentDigest : Option δ := none
  programPath : Text := []

inductive VerifyErr where
  | platform
  | archive
  | checksumMismatch
  | extract
  | list
  | tar
  | collision (name : List Text)
  | unreadable (name : List Text)
  | differs (name : List Text)
  | incomplete
  | invalid (e : FilesErr)
  | noELF
  | contentMismatch

def filesDir : Text := "files".toList

def archivePath : List Text := ["files.tar.gz".toList]

/-- `tarEntryName` of a listed file: its path below the directory of the files. -/
def entryName (path : List Text) : List Text := path.dropLast.reverse

variable {ι δ : Type} [DecidableEq ι] [DecidableEq δ] (w : World ι δ)

def stamp (t : Tree Text (Stamp ι)) (path : List Text) : Option (Stamp ι) :=
  match t.stat w.hops w.root path with
  | .found p =>
    match t.node p with
    | some (.file st) => some st
    | _ => none
  | _ => none

def statID (t : Tree Text (Stamp ι)) (path : List Text) : Option ι := (stamp w t path).map Stamp.id

def fileDigest (s : State ι δ) (path : List Text) : State ι δ × Option δ :=
  match statID w s.tree path with
  | none => (s, none)
  | some id =>
    match Assoc.find s.cache (path, id) with
    | some sum => (s, some sum)
    | none =>
      let sum := w.sha (w.bytes id)
      ({ s with cache := Assoc.set s.cache (path, id) sum }, some sum)

def seedDigest (s : State ι δ) (rec : List Text × ι × δ) : State ι δ :=
  if statID w s.tree rec.1 = some rec.2.1 ∧ w.weak rec.2.1 = false then
    { s with cache := Assoc.set s.cache (rec.1, rec.2.1) rec.2.2 }
  else s

def seedDigests (s : State ι δ) : State ι δ := s.index.files.foldl (seedDigest w) s

def saveDigest (s : State ι δ) (files : List (List Text × ι × δ)) (path : List Text) :
    List (List Text × ι × δ) :=
  match statID w s.tree path with
  | none => files
  | some id =>
    match Assoc.find s.cache (path, id) with
    | none => files
    | some sum => Assoc.set files path (id, sum)

def saveDigests (s : State ι δ) (paths : List (List Text)) (hash : δ) (ok : Bool) : State ι δ :=
  if ok then
    { s with index := { files := paths.foldl (saveDigest w s) [], verifiedArchive := some hash } }
  else s

def archiveVerified (s : State ι δ) (hash : δ) (files : List (List Text)) : Bool :=
  s.index.verifiedArchive = some hash && files ≠ [] &&
    files.all fun f =>
      match Assoc.find s.index.files f with
      | none => false
      | some rec => statID w s.tree f = some rec.1

structure Unpacking (ι : Type) where
  tree : Tree Text (Stamp ι)
  clock : Nat
  budget : Int := Ops.maxExtractedBytes
  failed : Bool := false

def unpackReg (u : Unpacking ι) (target : List Text) (bytes : List UInt8) (exec broken : Bool) :
    Unpacking ι :=
  let made := u.tree.mkdirAll w.hops w.root target.tail
  if !made.2 then { u with tree := made.1, failed := true }
  else
    let read := bytes.take (u.budget + 1).toNat
    let exec := ((stamp w made.1 target).map Stamp.exec).getD exec
    let out := made.1.write w.hops w.root target ⟨w.new u.clock read, exec⟩
    { u with
      tree := out.1
      clock := u.clock + 1
      budget := u.budget - read.length
      failed := !out.2 || (broken && (bytes.length : Int) ≤ u.budget) ||
        u.budget - read.length < 0 }

def unpackStep (u : Unpacking ι) (e : TarEntry) : Unpacking ι :=
  if u.failed ∨ Ops.isDot e.name then u
  else if !Ops.safePath e.name ∨ Ops.cleanParts e.name = [] then { u with failed := true }
  else if Ops.traversesSymlink w.hops w.root u.tree [filesDir] (Ops.cleanParts e.name).reverse then
    { u with failed := true }
  else
    let target := Ops.cleanParts e.name ++ [filesDir]
    match e.kind with
    | .other => { u with failed := true }
    | .dir =>
      let made := u.tree.mkdirAll w.hops w.root target
      { u with tree := made.1, failed := !made.2 }
    | .reg bytes exec broken => unpackReg w u target bytes exec broken

def isExtracted (t : Tree Text (Stamp ι)) : Bool :=
  match t.stat w.hops w.root [filesDir] with
  | .found p => t.isDir p && t.entries p ≠ []
  | _ => false

/-- The content of the package's archive. -/
def archiveBytes (t : Tree Text (Stamp ι)) : Option (List UInt8) :=
  (statID w t archivePath).map w.bytes

def archiveOf (t : Tree Text (Stamp ι)) : Tar :=
  match archiveBytes w t with
  | none => ⟨false, [], false⟩
  | some b => w.untar b

def extract (s : State ι δ) : State ι δ × Bool :=
  if isExtracted w s.tree then (s, true)
  else
    let a := archiveOf w s.tree
    let u := run (unpackStep w) { tree := s.tree, clock := s.clock }
      (if a.opens then a.entries else [])
    if !a.opens || u.failed || !a.eof then
      ({ s with tree := u.tree.removeAll (filesDir :: w.root), clock := u.clock }, false)
    else ({ s with tree := u.tree, clock := u.clock }, true)

def walkFiles (t : Tree Text (Stamp ι)) : Nat → List Text → List (List Text)
  | 0, _ => []
  | depth + 1, path =>
    ((t.entries (path ++ w.root)).insertionSort (· ≤ ·)).flatMap fun n =>
      if t.isDir (n :: (path ++ w.root)) then walkFiles t depth (n :: path) else [n :: path]

def extractedFileList (t : Tree Text (Stamp ι)) : Option (List (List Text)) :=
  match t.lstat w.hops w.root [filesDir] with
  | .node .dir => some (walkFiles w t t.nodes.length [filesDir])
  | .node _ => some [[filesDir]]
  | _ => none

def expectEntry (expected : List (List Text × δ)) (e : TarEntry) :
    Except VerifyErr (List (List Text × δ)) :=
  match e.kind with
  | .reg bytes _ broken =>
    let name := tarEntryName e.name
    if broken then .error .tar
    else if ∃ old, Assoc.find expected name = some old ∧ old ≠ w.sha bytes then
      .error (.collision name)
    else .ok (Assoc.set expected name (w.sha bytes))
  | _ => .ok expected

def expect (a : Tar) : Except VerifyErr (List (List Text × δ)) :=
  if !a.opens then .error .tar
  else
    match a.entries.foldlM (expectEntry w) [] with
    | .error e => .error e
    | .ok expected => if a.eof then .ok expected else .error .tar

/-- The files against what is expected of them.  A name that was met is taken off. -/
def compareFiles (s : State ι δ) (expected : List (List Text × δ)) :
    List (List Text) → State ι δ × Except VerifyErr Unit
  | [] => (s, if expected = [] then .ok () else .error .incomplete)
  | f :: files =>
    match fileDigest w s f with
    | (s, none) => (s, .error (.unreadable (entryName f)))
    | (s, some got) =>
      if Assoc.find expected (entryName f) = some got then
        compareFiles s (expected.filter fun e => e.1 ≠ entryName f) files
      else (s, .error (.differs (entryName f)))

def verifyExtractedArchive (s : State ι δ) (files : List (List Text)) :
    State ι δ × Except VerifyErr Unit :=
  match expect w (archiveOf w s.tree) with
  | .error e => (s, .error e)
  | .ok expected => compareFiles w s expected files

def swapFirst {α : Type} : List α → Nat → List α
  | x :: l, i + 1 =>
    match l[i]? with
    | some y => y :: l.set i x
    | none => x :: l
  | l, _ => l

def programFirst (p : Meta δ) (files : List (List Text)) : List (List Text) :=
  if p.programPath = [] then files
  else
    match files.findIdx? fun f => entryName f = tarEntryName p.programPath with
    | some i => swapFirst files i
    | none => files

/-- A listed file.  The path of the directory itself below the directory is a dot. -/
def hostFile (f : List Text) : File :=
  { hostPath := Path.join f.reverse
    guestPath := if entryName f = [] then ['.'] else Path.join (entryName f)
    isDir := false }

def host (s : State ι δ) (files : List (List Text)) : Host δ where
  fileDigest p := (files.find? fun f => (hostFile f).hostPath = p).bind fun f =>
    (fileDigest w s f).2
  elfAccepted p platform :=
    ((files.find? fun f => (hostFile f).hostPath = p).bind fun f =>
      (statID w s.tree f).map fun id => w.elfAccepted (w.bytes id) platform).getD false

/-- The digests that `ValidateFiles` asks for are known afterwards. -/
def digestAll (s : State ι δ) (files : List (List Text)) : State ι δ :=
  files.foldl (fun s f => (fileDigest w s f).1) s

def contentDigest (s : State ι δ) (files : List (List Text)) : δ :=
  w.digestEntries (files.filterMap fun f =>
    (stamp w s.tree f).bind fun st => (fileDigest w s f).2.map fun sum =>
      (entryName f, st.exec, sum))

def isELFFile (s : State ι δ) (f : List Text) : Bool :=
  ((statID w s.tree f).map fun id => w.isELF (w.bytes id)).getD false

/-- The second half of `Verify`, for files that match the archive. -/
def accept (p : Meta δ) (platform : Text) (hash : δ) (saved : Bool) (s : State ι δ)
    (files : List (List Text)) : State ι δ × Except VerifyErr (List (List Text)) :=
  let files := programFirst p files
  match validateFiles (host w s files) (files.map hostFile) platform with
  | .error e => (digestAll w s files, .error (.invalid e))
  | .ok () =>
    let s := saveDigests w (digestAll w s files) (files ++ [archivePath]) hash saved
    if p.platform = [] ∧ files.any (isELFFile w s) = false then (s, .error .noELF)
    else if p.contentDigest.isSome ∧ p.contentDigest ≠ some (contentDigest w s files) then
      (s, .error .contentMismatch)
    else (s, .ok files)

def check (hash : δ) (s : State ι δ) (files : List (List Text)) :
    State ι δ × Except VerifyErr Unit :=
  if archiveVerified w s hash files then (s, .ok ()) else verifyExtractedArchive w s files

/-- `Verify`.  `saved` tells if the index can be written. -/
def verify (p : Meta δ) (platform : Text) (saved : Bool) (s : State ι δ) :
    State ι δ × Except VerifyErr (List (List Text)) :=
  if p.platform ≠ [] ∧ p.platform ≠ platform then (s, .error .platform)
  else
    match fileDigest w (seedDigests w s) archivePath with
    | (s, none) => (s, .error .archive)
    | (s, some hash) =>
      if p.sha256.isSome ∧ p.sha256 ≠ some hash then (s, .error .checksumMismatch)
      else
        match extract w s with
        | (s, false) => (s, .error .extract)
        | (s, true) =>
          match extractedFileList w s.tree with
          | none => (s, .error .list)
          | some files =>
            match check w hash s files with
            | (s, .error e) => (s, .error e)
            | (s, .ok ()) => accept w p platform hash saved s files

/-- Between calls anyone may change the tree, and the process may start anew. -/
inductive Op (ι δ : Type) where
  | verify (p : Meta δ) (platform : Text) (saved : Bool)
  | change (tree : Tree Text (Stamp ι))
  | restart

def step (s : State ι δ) : Op ι δ → State ι δ
  | .verify p platform saved => (verify w p platform saved s).1
  | .change tree => { s with tree }
  | .restart => { s with cache := [] }

end Jerboa.Package
