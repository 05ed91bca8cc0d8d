import Jerboa.Lib.Path
import Jerboa.Lib.Run
import Jerboa.Lib.Tree
import Jerboa.Net.Address

/-!
# Ops packages

`OpsStore.Extract` and `OpsStore.ExtractedFiles` of package `pkg`: an archive is
unpacked into a package's directory, entry by entry, and its files are listed.
Paths are POSIX paths: only `/` divides them, and there are no volume names.
Below the directory they are lists of names, the last one first, and a path that
leaves the directory is `none`.  The content of a file is its size, as nothing
depends on more.
-/

namespace Jerboa.Ops

open Lib Lib.Run Net.Address

/-- The host.  `root` is the place of the package's directory, `hops` the number of
links the operating system follows below it, and `evalHops` the same for
`filepath.EvalSymlinks`. -/
structure Env where
  linux : Bool
  root : List Text
  hops : Nat
  evalHops : Nat

def maxExtractedBytes : Nat := 4 * 2 ^ 30

/-- What a part of a path does to the ones before it in `filepath.Clean`. -/
def cleanStep (rooted : Bool) (out : List Text) (part : Text) : List Text :=
  if part = [] ∨ part = ['.'] then out
  else if part = ['.', '.'] then
    match out with
    | [] => if rooted then [] else [['.', '.']]
    | last :: rest => if last = ['.', '.'] then ['.', '.'] :: out else rest
  else part :: out

def isRooted (p : Text) : Bool := p.head? = some '/'

def cleanParts (p : Text) : List Text := (Path.split p).foldl (cleanStep (isRooted p)) []

def isDot (p : Text) : Bool := !isRooted p && (cleanParts p).isEmpty

/-- `safePath`.  What does not start with two dots stays below the directory. -/
def safePath (entryName : Text) : Bool :=
  !isDot entryName && (cleanParts entryName).getLast? ≠ some ['.', '.']

def isLocal (p : Text) : Bool :=
  !isRooted p && p ≠ [] && (cleanParts p).getLast? ≠ some ['.', '.']

/-- The path of an entry below the directory, if it is not skipped for its name. -/
def entryPath (entryName : Text) : Option (List Text) :=
  if entryName = [] ∨ entryName = ['/'] ∨ isDot entryName then none
  else if !safePath entryName then none
  else if !isLocal entryName then none
  else some (cleanParts entryName)

/-- `traversesSymlink` below `root`, with the path so far and the parts that are left. -/
def traversesSymlink {β : Type} (hops : Nat) (root : List Text) (t : Tree Text β) :
    List Text → List Text → Bool
  | _, [] => false
  | cur, part :: parts =>
    match t.lstat hops root (part :: cur) with
    | .notExist => false
    | .failed => true
    | .node (.link _ _) => true
    | .node _ => traversesSymlink hops root t (part :: cur) parts

def comp (part : Text) : Comp Text :=
  if part = [] ∨ part = ['.'] then .here
  else if part = ['.', '.'] then .up
  else .name part

def comps (linkname : Text) : List (Comp Text) := (Path.split linkname).map comp

def physicallyWithin (env : Env) (t : Tree Text Nat) : List Text → List (Comp Text) → Bool
  | _, [] => true
  | cur, .here :: rest => physicallyWithin env t cur rest
  | cur, .name n :: rest => physicallyWithin env t (n :: cur) rest
  | cur, .up :: rest =>
    match t.lstat env.hops env.root cur with
    | .node (.link _ _) => false
    | _ =>
      match cur with
      | [] => false
      | _ :: above => physicallyWithin env t above rest

def join : List Text → List (Comp Text) → Option (List Text)
  | cur, [] => some cur
  | cur, .here :: rest => join cur rest
  | cur, .name n :: rest => join (n :: cur) rest
  | [], .up :: _ => none
  | _ :: above, .up :: rest => join above rest

def resolveLinkname (env : Env) (t : Tree Text Nat) (base : List Text) (linkname : Text) :
    Option (List Text) :=
  if linkname = [] ∨ isRooted linkname then none
  else if !physicallyWithin env t base (comps linkname) then none
  else join base (comps linkname)

def evalSymlinksLenient (env : Env) (t : Tree Text Nat) : List Text → List Text → Option (List Text)
  | cur, remainder =>
    match t.walk env.evalHops env.root (names cur) with
    | .found p => some (remainder ++ p)
    | .absent _ _ =>
      match cur with
      | [] => none
      | n :: parent => evalSymlinksLenient env t parent (remainder ++ [n])
    | _ => none

def resolvesWithinDir (env : Env) (t : Tree Text Nat) (path : List Text) : Bool :=
  match evalSymlinksLenient env t path [] with
  | none => false
  | some p => env.root <:+ p

/-! ## The loop -/

/-- A regular file has the bytes that can be read, and says if reading on fails. -/
inductive Kind where
  | dir
  | reg (size : Nat) (broken : Bool)
  | symlink (linkname : Text)
  | other
deriving DecidableEq

structure Entry where
  name : Text
  kind : Kind

inductive ExtractErr where
  | open
  | tar
  | mkdir (target : List Text)
  | create (target : List Text)
  | write (target : List Text)
  | tooLarge
deriving DecidableEq

structure PendingLink where
  path : List Text
  resolved : List Text

/-- The variables of the loop, the tree and the bytes written so far. -/
structure Extraction where
  tree : Tree Text Nat
  stripPrefix : Text := []
  pendingLinks : List PendingLink := []
  budget : Int := maxExtractedBytes
  written : Nat := 0
  err : Option ExtractErr := none

def writeReg (env : Env) (s : Extraction) (target : List Text) (size : Nat) (broken : Bool) :
    Extraction :=
  let made := s.tree.mkdirAll env.hops env.root target.tail
  if !made.2 then { s with tree := made.1, err := some (.mkdir target.tail) }
  else
    let n := min size (s.budget + 1).toNat
    let out := made.1.write env.hops env.root target n
    if !out.2 then { s with tree := out.1, err := some (.create target) }
    else
      { s with
        tree := out.1
        budget := s.budget - n
        written := s.written + n
        err :=
          if broken ∧ (size : Int) ≤ s.budget then some (.write target)
          else if s.budget - n < 0 then some .tooLarge
          else none }

def writeSymlink (env : Env) (s : Extraction) (target : List Text) (linkname : Text) : Extraction :=
  if !resolvesWithinDir env s.tree target then s
  else
    match resolveLinkname env s.tree target.tail linkname with
    | none => s
    | some linkTarget =>
      if !resolvesWithinDir env s.tree linkTarget then s
      else if env.linux then
        { s with tree := (s.tree.create env.hops env.root (.link false (comps linkname)) target).1 }
      else { s with pendingLinks := s.pendingLinks ++ [⟨target, linkTarget⟩] }

def writeEntry (env : Env) (s : Extraction) (target : List Text) : Kind → Extraction
  | .dir =>
    let made := s.tree.mkdirAll env.hops env.root target
    { s with tree := made.1, err := if made.2 then none else some (.mkdir target) }
  | .reg size broken => writeReg env s target size broken
  | .symlink linkname => writeSymlink env s target linkname
  | .other => s

def trimPrefix (s start : Text) : Text := if start <+: s then s.drop start.length else s

/-- The prefix that is taken off the names from an entry on: the first directory with
a slash in its name. -/
def Entry.strip (e : Entry) (stripPrefix : Text) : Text :=
  if stripPrefix = [] ∧ e.kind = .dir ∧ '/' ∈ e.name then e.name else stripPrefix

def Entry.target (e : Entry) (stripPrefix : Text) : Option (List Text) :=
  entryPath (if stripPrefix = [] then e.name else trimPrefix e.name stripPrefix)

def Entry.appleDouble (e : Entry) : Bool :=
  ['.', '_'] <+: ((Path.fields e.name).getLast?.getD [])

/-- One entry. -/
def entryStep (env : Env) (s : Extraction) (e : Entry) : Extraction :=
  if s.err.isSome ∨ e.appleDouble then s
  else
    let s := { s with stripPrefix := e.strip s.stripPrefix }
    match e.target s.stripPrefix with
    | none => s
    | some target =>
      if traversesSymlink env.hops env.root s.tree [] target.reverse then s
      else writeEntry env s target e.kind

structure Copying where
  tree : Tree Text Nat
  written : Nat
  next : List PendingLink := []
  progressed : Bool := false

def fileSize (t : Tree Text Nat) (p : List Text) : Nat :=
  match t.node p with
  | some (.file size) => size
  | _ => 0

/-- `copyFileContents` of the file at `src`, with the bytes written.  A file that is
copied to itself is empty before it is read. -/
def copyFileContents (env : Env) (t : Tree Text Nat) (src : List Text) (dst : List Text) :
    Tree Text Nat × Nat :=
  let made := t.mkdirAll env.hops env.root dst.tail
  if !made.2 then (made.1, 0)
  else
    let out := made.1.write env.hops env.root dst 0
    if !out.2 then (out.1, 0)
    else ((out.1.write env.hops env.root dst (fileSize out.1 src)).1, fileSize out.1 src)

def copyStep (env : Env) (c : Copying) (l : PendingLink) : Copying :=
  match c.tree.stat env.hops env.root l.resolved with
  | .found p =>
    if c.tree.isFile p then
      let copied := copyFileContents env c.tree p l.path
      { c with tree := copied.1, written := c.written + copied.2, progressed := true }
    else { c with next := c.next ++ [l] }
  | _ => { c with next := c.next ++ [l] }

/-- `materializeLinks`.  A pass that makes a copy leaves fewer links. -/
def materializeLinks (env : Env) :
    Nat → Tree Text Nat → Nat → List PendingLink → Tree Text Nat × Nat
  | 0, t, written, _ => (t, written)
  | passes + 1, t, written, links =>
    let c := run (copyStep env) { tree := t, written } links
    if c.progressed then materializeLinks env passes c.tree c.written c.next
    else (c.tree, c.written)

/-- An archive, as far as it can be read. -/
structure Archive where
  opens : Bool
  entries : List Entry
  eof : Bool

def keptEntry (env : Env) (t : Tree Text Nat) (n : Text) : Bool :=
  !t.isDir (n :: env.root) && (".tar.gz".toList <:+ n || n == "manifest.json".toList)

def discardExtracted (env : Env) (t : Tree Text Nat) : Tree Text Nat :=
  ((t.entries env.root).filter fun n => !keptEntry env t n).foldl
    (fun t n => t.removeAll (n :: env.root)) t

structure Result where
  tree : Tree Text Nat
  written : Nat
  err : Option ExtractErr

def loop (env : Env) (t : Tree Text Nat) (a : Archive) : Extraction :=
  run (entryStep env) { tree := t } a.entries

def loopErr (env : Env) (t : Tree Text Nat) (a : Archive) : Option ExtractErr :=
  match (loop env t a).err with
  | some e => some e
  | none => if a.eof then none else some .tar

/-- `Extract` of a package that is not extracted. -/
def extract (env : Env) (t : Tree Text Nat) (a : Archive) : Result :=
  if !a.opens then ⟨discardExtracted env t, 0, some .open⟩
  else
    let s := loop env t a
    match loopErr env t a with
    | some e => ⟨discardExtracted env s.tree, s.written, some e⟩
    | none =>
      let m := materializeLinks env s.pendingLinks.length s.tree s.written s.pendingLinks
      ⟨m.1, m.2, none⟩

/-- A file for an image.  A directory has no path on the host. -/
structure File where
  hostPath : Option (List Text)
  guestPath : Text
  isDir : Bool
deriving DecidableEq

/-- The path in the guest of what is at `rel`. -/
def guestPath (rel last : Text) : Text :=
  if "sysroot/".toList <+: rel then trimPrefix rel "sysroot/".toList else last

end Jerboa.Ops
