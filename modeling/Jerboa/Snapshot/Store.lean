import Jerboa.Lib.Int64
import Jerboa.Lib.Run
import Jerboa.Net.Address
import Mathlib.Data.List.AList
import Mathlib.Data.List.Infix

/-!
# The snapshot store

`snapshot.Store`: names reserved and published, the handles of `Acquire`, and
the quota.  A published entry is represented by the bytes of its regular files,
which is what `usageLocked` measures.

The lock of the store makes each operation one step, except `Publish`: it
verifies the staged files before it takes the lock, so it is two steps, and
anything may happen between them.  What the operating system answers is an
argument of the operation, and every call but `os.Lstat` may fail: that one
tells whether an entry is there.
-/

namespace Jerboa.Snapshot

open Lib Net.Address

def lowerOrDigit (c : Char) : Bool := ('a' ≤ c && c ≤ 'z') || ('0' ≤ c && c ≤ '9')

def validateName : Text → Bool
  | [] => false
  | c :: rest =>
    lowerOrDigit c && rest.length ≤ 62 &&
      rest.all (fun c => lowerOrDigit c || c == '_' || c == '.' || c == '-') &&
      !decide (['.', '.'] <:+: c :: rest)

inductive Err where
  | invalidName
  | alreadyExists
  | notFound
  | quota
  | inUse
  | released
  | integrity
  | io
deriving DecidableEq, Repr

/-- `Limits`.  A limit that is not positive is none. -/
structure Limits where
  maxCount : Int
  maxBytes : Int

/-- `Reservation`, with the bytes of the regular files in its directory. -/
structure Reservation where
  name : Text
  artifact : Nat
  rest : Nat
  done : Bool
deriving DecidableEq

structure Publishing where
  reservation : Nat
  sizeBytes : Int
deriving DecidableEq

structure Handle where
  name : Text
  released : Bool
deriving DecidableEq

/-- `Store`, with all that its callers hold. -/
structure Sys where
  limits : Limits
  entries : AList fun _ : Text => Nat
  reserved : AList fun _ : Text => Int
  inUse : AList fun _ : Text => Int
  reservations : List Reservation
  publishing : List Publishing
  handles : List Handle

namespace Sys

/-- `Open` of a directory that holds entries. -/
def opened (limits : Limits) (entries : AList fun _ : Text => Nat) : Sys where
  limits := limits
  entries := entries
  reserved := ∅
  inUse := ∅
  reservations := []
  publishing := []
  handles := []

/-- The bytes of all entries. -/
def bytes (s : Sys) : Nat := (s.entries.entries.map Sigma.snd).sum

def sum64 (estimates : List Int) : Int := estimates.foldl (fun acc b => int64 (acc + b)) 0

/-- `pending` of `Reserve`. -/
def pending (s : Sys) : Int := sum64 (s.reserved.entries.map Sigma.snd)

def others (s : Sys) (name : Text) : Int :=
  sum64 ((s.reserved.entries.filter fun e => e.1 ≠ name).map Sigma.snd)

/-- `usageLocked`, if the root can be read.  `missed` are the bytes of the files
that the walk cannot read. -/
def usage (s : Sys) (readDir : Bool) (missed : Nat) : Option (Int × Int) :=
  if readDir then some (s.entries.keys.length, int64 ((s.bytes - missed : Nat) : Int)) else none

structure ReserveCalls where
  readDir : Bool
  missed : Nat
  token : Bool
  mkdir : Bool

def reserve (s : Sys) (name : Text) (estimate : Int) (c : ReserveCalls) : Except Err Nat × Sys :=
  if !validateName name then (.error .invalidName, s)
  else if name ∈ s.reserved then (.error .alreadyExists, s)
  else if name ∈ s.entries then (.error .alreadyExists, s)
  else match s.usage c.readDir c.missed with
    | none => (.error .io, s)
    | some (count, used) =>
      if 0 < s.limits.maxCount ∧ s.limits.maxCount < count + s.reserved.keys.length + 1 then
        (.error .quota, s)
      else if 0 < s.limits.maxBytes ∧
          s.limits.maxBytes < int64 (int64 (used + s.pending) + estimate) then
        (.error .quota, s)
      else if !c.token then (.error .io, s)
      else if !c.mkdir then (.error .io, s)
      else (.ok s.reservations.length,
        { s with
          reserved := s.reserved.insert name estimate
          reservations := s.reservations ++ [⟨name, 0, 0, false⟩] })

def drop (s : Sys) (r : Nat) (ρ : Reservation) : Sys :=
  { s with
    reserved := s.reserved.erase ρ.name
    reservations := s.reservations.set r { ρ with done := true } }

def abort (s : Sys) (r : Nat) (ρ : Reservation) : Sys := if ρ.done then s else s.drop r ρ

/-- The verification at the start of `Publish`, with the caller's check.
`VerifyArtifact` counts the bytes of all files of the artifact. -/
def verify (s : Sys) (r : Nat) (ρ : Reservation) (passes : Bool) : Except Err Unit × Sys :=
  if passes then
    (.ok (), { s with publishing := s.publishing ++ [⟨r, int64 ρ.artifact⟩] })
  else (.error .integrity, s.abort r ρ)

structure PublishCalls where
  readDir : Bool
  missed : Nat
  marshal : Bool
  sidecar : Nat
  writeSidecar : Bool
  rename : Bool

def publish (s : Sys) (r : Nat) (ρ : Reservation) (sizeBytes : Int) (c : PublishCalls) :
    Except Err Unit × Sys :=
  if ρ.done then (.error .released, s)
  else match s.usage c.readDir c.missed with
    | none => (.error .io, s.drop r ρ)
    | some (_, used) =>
      if 0 < s.limits.maxBytes ∧
          s.limits.maxBytes < int64 (int64 (used + s.others ρ.name) + sizeBytes) then
        (.error .quota, s.drop r ρ)
      else if !c.marshal then (.error .io, s.drop r ρ)
      else if !c.writeSidecar then (.error .io, s.drop r ρ)
      else if ρ.name ∈ s.entries then (.error .alreadyExists, s.drop r ρ)
      else if !c.rename then (.error .io, s.drop r ρ)
      else (.ok (),
        { s.drop r ρ with
          -- the directory is renamed with all that is in it
          entries := s.entries.insert ρ.name (ρ.artifact + ρ.rest + c.sidecar) })

def uses (s : Sys) (name : Text) : Int := (s.inUse.lookup name).getD 0

def acquire (s : Sys) (name : Text) : Except Err Nat × Sys :=
  if !validateName name then (.error .invalidName, s)
  else if name ∉ s.entries then (.error .notFound, s)
  else (.ok s.handles.length,
    { s with
      inUse := s.inUse.insert name (s.uses name + 1)
      handles := s.handles ++ [⟨name, false⟩] })

def release (s : Sys) (k : Nat) (h : Handle) : Sys :=
  if h.released then s
  else
    { s with
      inUse :=
        if s.uses h.name - 1 ≤ 0 then s.inUse.erase h.name
        else s.inUse.insert h.name (s.uses h.name - 1)
      handles := s.handles.set k { h with released := true } }

structure RemoveCalls where
  /-- Whether the journal, if it can be read, has an interrupted restore of the
  snapshot. -/
  operations : Option Bool
  privateDir : Bool
  token : Bool
  rename : Bool

def remove (s : Sys) (name : Text) (c : RemoveCalls) : Except Err Unit × Sys :=
  if !validateName name then (.error .invalidName, s)
  else if name ∉ s.entries then (.error .notFound, s)
  else if 0 < s.uses name then (.error .inUse, s)
  else match c.operations with
    | none => (.error .io, s)
    | some true => (.error .inUse, s)
    | some false =>
      if !c.privateDir then (.error .integrity, s)
      else if !c.token then (.error .io, s)
      else if !c.rename then (.error .io, s)
      else (.ok (), { s with entries := s.entries.erase name })

inductive Action where
  | reserve (name : Text) (estimate : Int) (c : ReserveCalls)
  | stage (r artifact rest : Nat)
  | verify (r : Nat) (passes : Bool)
  | publish (p : Nat) (c : PublishCalls)
  | abort (r : Nat)
  | acquire (name : Text)
  | release (k : Nat)
  | remove (name : Text) (c : RemoveCalls)

def step (s : Sys) : Action → Sys
  | .reserve name estimate c => (s.reserve name estimate c).2
  | .stage r artifact rest =>
    match s.reservations[r]? with
    | none => s
    | some ρ =>
      if ρ.done then s
      else { s with
        reservations := s.reservations.set r { ρ with artifact := artifact, rest := rest } }
  | .verify r passes =>
    match s.reservations[r]? with
    | none => s
    | some ρ => (s.verify r ρ passes).2
  | .publish p c =>
    match s.publishing[p]? with
    | none => s
    | some call =>
      match s.reservations[call.reservation]? with
      | none => s
      | some ρ =>
        ({ s with publishing := s.publishing.eraseIdx p }.publish call.reservation ρ
          call.sizeBytes c).2
  | .abort r =>
    match s.reservations[r]? with
    | none => s
    | some ρ => s.abort r ρ
  | .acquire name => (s.acquire name).2
  | .release k =>
    match s.handles[k]? with
    | none => s
    | some h => s.release k h
  | .remove name c => (s.remove name c).2

end Sys

end Jerboa.Snapshot
