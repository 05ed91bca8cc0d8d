import Jerboa.Image.Manifest
import Jerboa.Lib.Dir
import Jerboa.Lib.Run

/-!
# The blob store

`cas.Store`: the directory of blobs, each under the hexadecimal digits of its
digest, and the calls that work on it at the same time.  A call of `PutFile`,
`PutBytes` or `PutStream` is the program of its system calls, each of which may
fail; `Prune` looks at a blob and removes it in two steps.  The process can die
between any two steps, and its calls are gone.
-/

namespace Jerboa.Cas

open Net.Address Lib

abbrev Root := Dir Text Bytes

def tempPrefix : Text := ".tmp-".toList

/-- The system calls, on the temporary file unless told otherwise. -/
inductive Op where
  | has
  | touch
  | createTemp
  | openSource
  | remove
  | createExcl
  /-- `os.OpenFile` with `O_WRONLY|O_TRUNC`, and with `O_CREATE` or not. -/
  | openTrunc (create : Bool)
  | cloneFile
  | fill
  | close
  | chmod
  | hash
  | chtimes
  | rename
deriving DecidableEq, Repr

/-- A program: what is done when a call succeeds, and when it fails. -/
inductive Prog where
  | done
  | op (o : Op) (ok err : Prog)

namespace Prog

def cleanup : Prog := .op .remove .done .done

def renameIn : Prog := .op .rename cleanup (.op .has cleanup cleanup)

def commit : Prog :=
  .op .hash (.op .chmod (.op .chtimes renameIn renameIn) cleanup) cleanup

/-- The start of the three functions: a blob that is there is touched. -/
def unlessStored (rest : Prog) : Prog :=
  .op .has (.op .touch .done .done) (.op .createTemp rest .done)

def filled (yes no : Prog) : Prog := .op .fill (.op .close yes no) (.op .close no no)

def putBytes : Prog := unlessStored (.op (.openTrunc true) (filled commit cleanup) cleanup)

def putStream : Prog := unlessStored (.op (.openTrunc false) (filled commit cleanup) cleanup)

inductive Platform where
  | linux
  | darwin
  | other
deriving DecidableEq, Repr

def cloneFile : Platform → Prog → Prog → Prog
  | .linux, yes, no =>
    .op .openSource (.op .createExcl (filled yes (.op .remove no no)) no) no
  | .darwin, yes, no => .op .cloneFile yes (.op .remove no no)
  | .other, _, no => no

def sparseCopy (yes no : Prog) : Prog :=
  .op .openSource (.op .remove (.op .createExcl (filled yes no) no) no) no

def clone (platform : Platform) (yes : Prog) : Prog :=
  .op .remove (cloneFile platform (.op .chmod yes cleanup) (sparseCopy yes cleanup)) cleanup

def putFile (platform : Platform) : Prog := unlessStored (clone platform commit)

end Prog

/-! ## Calls -/

/-- A call of one of the three functions. -/
structure Put where
  digest : Text
  tmp : Option Text
  fd : Option Nat
  prog : Prog

/-- The call has returned. -/
def Put.returned (t : Put) : Bool :=
  match t.prog with
  | .done => true
  | .op .. => false

/-- What the system makes of a call: whether it succeeds, the name that
`CreateTemp` picks, what the file holds after a write and whether more is to be
written, and the time that `clonefile` copies. -/
structure Outcome where
  ok : Bool
  name : Text
  content : Bytes
  more : Bool
  mtime : Int

variable (sha256Hex : Bytes → Text)

/-- One system call on the temporary file `tmp`, and whether it succeeds. -/
def Put.execTmp (now : Int) (d : Root) (t : Put) (tmp : Text) (c : Outcome) :
    Op → Root × Put × Bool
  | .remove => if c.ok then (d.unlink tmp, t, true) else (d, t, false)
  | .createExcl =>
    if c.ok && (d.find tmp).isNone then
      (d.create tmp ⟨[], now⟩, { t with fd := some d.files.length }, true)
    else (d, t, false)
  | .openTrunc create =>
    if !c.ok then (d, t, false)
    else match d.find tmp with
      | some i => (d.modify tmp fun _ => ⟨[], now⟩, { t with fd := some i }, true)
      | none =>
        if create then (d.create tmp ⟨[], now⟩, { t with fd := some d.files.length }, true)
        else (d, t, false)
  | .cloneFile =>
    if c.ok && (d.find tmp).isNone then (d.create tmp ⟨c.content, c.mtime⟩, t, true)
    else (d, t, false)
  | .chmod => (d, t, c.ok)
  | .hash =>
    (d, t, c.ok && ((d.file tmp).map fun f => sha256Hex f.content) = some t.digest)
  | .chtimes => (if c.ok then d.modify tmp fun f => { f with mtime := now } else d, t, true)
  | .rename =>
    if c.ok && (d.find tmp).isSome then (d.rename tmp t.digest, t, true) else (d, t, false)
  | _ => (d, t, false)

def Put.exec (now : Int) (d : Root) (t : Put) (c : Outcome) : Op → Root × Put × Bool
  | .has => (d, t, (d.find t.digest).isSome)
  | .touch => (if c.ok then d.modify t.digest fun f => { f with mtime := now } else d, t, true)
  | .createTemp =>
    if c.ok && tempPrefix.isPrefixOf c.name && (d.find c.name).isNone then
      (d.create c.name ⟨[], now⟩, { t with tmp := some c.name }, true)
    else (d, t, false)
  | .openSource => (d, t, c.ok)
  | .fill =>
    match t.fd with
    | some i => (d.write i ⟨c.content, now⟩, t, c.ok)
    | none => (d, t, false)
  | .close => (d, { t with fd := none }, c.ok)
  | o =>
    match t.tmp with
    | some tmp => t.execTmp sha256Hex now d tmp c o
    | none => (d, t, false)

def Put.advance (now : Int) (d : Root) (t : Put) (c : Outcome) : Root × Put :=
  match t.prog with
  | .done => (d, t)
  | .op o ok err =>
    let (d', t', success) := t.exec sha256Hex now d c o
    if o = .fill ∧ c.more = true then (d', t')
    else (d', { t' with prog := if success then ok else err })

/-- A call of the system that gives the blob the present time or puts it in its place. -/
def Op.stores : Op → Bool → Bool
  | .touch, success | .rename, success => success
  | _, _ => false

def Put.stores (now : Int) (d : Root) (t : Put) (c : Outcome) : Bool :=
  match t.prog with
  | .done => false
  | .op o _ _ => o.stores (t.exec sha256Hex now d c o).2.2

/-- A call of `Prune`. -/
structure Prune where
  keep : Text → Bool
  cutoff : Int
  todo : List Text
  looked : Option Text

def Prune.look (d : Root) (p : Prune) (ok : Bool) : Prune :=
  match p.todo with
  | [] => p
  | n :: todo =>
    if !Image.isSHA256Hex n || p.keep n then { p with todo := todo }
    else match d.file n with
      | some f =>
        if ok && f.mtime ≤ p.cutoff then { p with todo := todo, looked := some n }
        else { p with todo := todo }
      | none => { p with todo := todo }

def Prune.remove (d : Root) (p : Prune) (n : Text) (ok : Bool) : Root × Prune :=
  if ok then (d.unlink n, { p with looked := none })
  else (d, { p with todo := [], looked := none })

/-- The system, and as its history the time at which a blob was last stored or touched. -/
structure Sys where
  root : Root
  now : Int
  stored : Text → Int
  puts : List Put
  prunes : List Prune

inductive Action where
  | tick (elapsed : Nat)
  | putFile (platform : Prog.Platform) (source : Bytes)
  | putBytes (data : Bytes)
  | putStream (digest : Text)
  | advance (k : Nat) (c : Outcome)
  | prune (keep : Text → Bool) (grace : Int) (entries : List Text)
  | pruneNext (k : Nat) (ok : Bool)
  | crash

def Sys.call (s : Sys) (digest : Text) (prog : Prog) : Sys :=
  { s with puts := s.puts ++ [⟨digest, none, none, prog⟩] }

def Sys.step (s : Sys) : Action → Sys
  | .tick elapsed => { s with now := s.now + elapsed }
  | .putFile platform source => s.call (sha256Hex source) (.putFile platform)
  | .putBytes data => s.call (sha256Hex data) .putBytes
  | .putStream digest => if Image.isSHA256Hex digest then s.call digest .putStream else s
  | .advance k c =>
    match s.puts[k]? with
    | none => s
    | some t =>
      let (root, t') := t.advance sha256Hex s.now s.root c
      { s with
        root := root
        puts := s.puts.set k t'
        stored :=
          if t.stores sha256Hex s.now s.root c then Function.update s.stored t.digest s.now
          else s.stored }
  | .prune keep grace entries =>
    { s with prunes := s.prunes ++ [⟨keep, s.now - grace, entries, none⟩] }
  | .pruneNext k ok =>
    match s.prunes[k]? with
    | none => s
    | some p =>
      match p.looked with
      | none => { s with prunes := s.prunes.set k (p.look s.root ok) }
      | some n =>
        let (root, p') := p.remove s.root n ok
        { s with root := root, prunes := s.prunes.set k p' }
  | .crash => { s with puts := [], prunes := [] }

/-- The store with no call at work.  Of a blob that is there, only its time is known. -/
def Sys.idle (root : Root) (now : Int) : Sys where
  root := root
  now := now
  stored n := ((root.file n).map File.mtime).getD now
  puts := []
  prunes := []

/-- The store after the actions. -/
def Sys.after (root : Root) (now : Int) (acts : List Action) : Sys :=
  Run.run (Sys.step sha256Hex) (Sys.idle root now) acts

end Jerboa.Cas
