import Jerboa.Manifest.Characters

/-!
# The files mkfs reads

The part of `kernel/tools/mkfs.c` that decides which files of the host are
opened: the manifest is parsed, the options in it are consumed, the boot tuple
is put together, and the two filesystems are filled from the `contents` of
their tuples.  mkfs is run with a boot image and a kernel image, as the daemon
runs it; what it writes is left out.

Where mkfs takes a value for a buffer that is none, it goes on with the bytes it
finds there, which are left open.  A value that it takes for a table and that is
none ends it, at the call of the functions a table holds.
-/

namespace Jerboa.Manifest.C

open Lib

def sym (name : String) : Bytes := bytes name.toList

def tableFind (t : Table) (a : Bytes) : Option Value := Assoc.find t a

def getTuple (t : Table) (a : Bytes) : Option Table :=
  match tableFind t a with
  | some (.tuple x) => some x
  | _ => none

def unset (t : Table) (a : Bytes) : Table := t.filter fun e => e.1 ≠ a

mutual

def translate : Value → List Value
  | .tuple t => translateEach t
  | .null => []
  | .string _ => []
  | .vector _ => []

def translateEach : Table → List Value
  | [] => []
  | (k, child) :: t =>
    (if k = sym "contents" then [child] else translate child) ++ translateEach t

end

/-- What mkfs meets. -/
structure Env where
  /-- The order of a worklist, which follows the hashes of the names. -/
  arrange : List Value → List Value
  perm : ∀ l, (arrange l).Perm l
  readable : Bytes → Bool
  parseSize : Bytes → Bool
  /-- The bytes found in a value that is no buffer, or none where mkfs ends. -/
  stray : Value → Option Bytes
  bootFits : Bool

def Env.buffer (env : Env) : Value → Option Bytes
  | .string b => some b
  | v => env.stray v

inductive HostFile where
  | absent
  | path (p : Bytes)
  | invalid

def hostFile (env : Env) : Value → HostFile
  | .tuple t =>
    match tableFind t (sym "host") with
    | none => .absent
    | some v =>
      match env.buffer v with
      | some p => .path p
      | none => .invalid
  | _ => .invalid

/-- The files that were opened, and whether mkfs goes on. -/
structure Run where
  opened : List Bytes
  goesOn : Bool

namespace Run

def halt : Run := ⟨[], false⟩

def andThen (r r' : Run) : Run := if r.goesOn then ⟨r.opened ++ r'.opened, r'.goesOn⟩ else r

end Run

variable (env : Env)

def readFile (p : Bytes) : Run := ⟨[p], env.readable p⟩

def readAll : List Value → Run
  | [] => ⟨[], true⟩
  | v :: rest =>
    match hostFile env v with
    | .absent => readAll rest
    | .path p => (readFile env p).andThen (readAll rest)
    | .invalid => .halt

def fsc (root : Table) : Run := readAll env (env.arrange (translate (.tuple root)))

/-! ## The main program -/

/-- The options the daemon gives, and `-c`. -/
structure Options where
  bootimg : Option Bytes
  kernelimg : Option Bytes
  compact : Bool

def consumeCompact (opts : Options) (root : Table) : Option (Table × Bool) :=
  match tableFind root (sym "compact") with
  | none => some (root, opts.compact)
  | some v => (env.buffer v).map fun b => (unset root (sym "compact"), b = sym "true")

def isHexDigit (c : UInt8) : Bool :=
  (0x30 ≤ c && c ≤ 0x39) || (0x61 ≤ c && c ≤ 0x66) || (0x41 ≤ c && c ≤ 0x46)

def parseUuidHex (b : Bytes) : Bool :=
  let digits := b.filter fun c => c ≠ 0x2d
  digits.all isHexDigit && digits.length = 32

def consumeUuid (root : Table) : Option Table :=
  match tableFind root (sym "uuid") with
  | none => some root
  | some v =>
    (env.buffer v).bind fun b => if parseUuidHex b then some (unset root (sym "uuid")) else none

def consumeImagesize (root : Table) : Option Table :=
  match tableFind root (sym "imagesize") with
  | none => some root
  | some v =>
    (env.buffer v).bind fun b =>
      if env.parseSize b then some (unset root (sym "imagesize")) else none

def checkCoredumplimit (root : Table) : Option Table :=
  match tableFind root (sym "coredumplimit") with
  | none => some root
  | some v => (env.buffer v).bind fun b => if env.parseSize b then some root else none

def findOrAllocateTuple (t : Table) (a : Bytes) : Option Table :=
  match tableFind t a with
  | none => some []
  | some (.tuple x) => some x
  | some _ => none

def addKernel (boot : Table) (kernelimg : Bytes) : Option Table :=
  match findOrAllocateTuple boot (sym "children") with
  | none => none
  | some children =>
    match findOrAllocateTuple children (sym "kernel") with
    | none => none
    | some kernel =>
      match findOrAllocateTuple kernel (sym "contents") with
      | none => none
      | some contents =>
        let contents := tableSet contents (sym "host") (.string kernelimg)
        let kernel := tableSet kernel (sym "contents") (.tuple contents)
        let children := tableSet children (sym "kernel") (.tuple kernel)
        some (tableSet boot (sym "children") (.tuple children))

/-- The boot tuple, or none; the outer `none` is a failed assertion. -/
def bootTuple (opts : Options) (compact : Bool) (root : Table) : Option (Option Table) :=
  let boot := getTuple root (sym "boot")
  if compact then some none
  else
    match opts.kernelimg with
    | some kernelimg => (addKernel (boot.getD []) kernelimg).map some
    | none =>
      match boot with
      | some boot => some (some boot)
      | none =>
        match getTuple root (sym "children") with
        | none => none
        | some children =>
          match getTuple children (sym "kernel") with
          | some kernel =>
            some (some [(sym "children", .tuple [(sym "kernel", .tuple kernel)])])
          | none => some none

def copyBootimg (opts : Options) (compact : Bool) : Run :=
  if compact then ⟨[], true⟩
  else
    match opts.bootimg with
    | some bootimg => readFile env bootimg
    | none => ⟨[], true⟩

def createFilesystems (opts : Options) (compact : Bool) (root : Table) : Run :=
  match bootTuple opts compact root with
  | none => .halt
  | some (some boot) =>
    (fsc env boot).andThen (if env.bootFits then fsc env (unset root (sym "boot")) else .halt)
  | some none =>
    if compact then
      fsc env (if (getTuple root (sym "boot")).isSome then unset root (sym "boot") else root)
    else if opts.bootimg.isSome then .halt
    else fsc env root

def build (opts : Options) (root : Table) : Run :=
  match (consumeCompact env opts root).bind fun r =>
    (consumeUuid env r.1).map fun root => (root, r.2) with
  | none => .halt
  | some (root, compact) =>
    (copyBootimg env opts compact).andThen
      (match (consumeImagesize env root).bind (checkCoredumplimit env) with
      | none => .halt
      | some root => createFilesystems env opts compact root)

/-- `main` with the last tuple of the manifest.  Without one it ends at the
filesystem. -/
def buildRoot (opts : Options) : Option Value → Run
  | some (.tuple root) => build env opts root
  | _ => (copyBootimg env opts opts.compact).andThen .halt

/-- `main` with the manifest on its standard input.  A parse error ends it before
it opens a file. -/
def mkfs (fuel : Nat) (opts : Options) (manifest : Bytes) : Option Run :=
  (parserFeed fuel manifest).map fun st =>
    if st.errors ≠ [] then .halt else buildRoot env opts st.finished.getLast?

end Jerboa.Manifest.C
