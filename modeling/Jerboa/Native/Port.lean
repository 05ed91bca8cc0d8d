import Jerboa.Lib.Bytes
import Jerboa.Lib.Except

/-!
# Ports of the switch

`ethernetConn` of package `network`, as the macOS switch reads it: the stream of a guest
is cut into frames, and those that do not come from the port's VM are dropped.  A stream
is the bytes that arrive in time; where they end, or where a length is out of range, the
read fails and the switch closes the port.
-/

namespace Jerboa.Native

open Lib Lib.Bytes

def maxEthernetFrame : Nat := 65536

def nativeMTU : Nat := 9000

def gatewayMAC : Bytes := [0x02, 0x4a, 0x65, 0x72, 0x62, 0x01]

def switchCapsType : Nat := 0x88b5

def switchCapsMagic : Bytes := [0x4a, 0x52, 0x42, 0x43]

def peerPromoteFrames : Nat := 32

/-- What a port belongs to.  An address that cannot be parsed is empty, and so is a
hardware address. -/
structure Port where
  ip : Bytes
  mac : Bytes

def byteAt (f : Bytes) (i : Nat) : Nat := (f.getD i 0).toNat

def uint16 (f : Bytes) (i : Nat) : Nat := beNat (slice f i 2)

def etherType (f : Bytes) : Nat := uint16 f 12

def announcement (p : Port) : List Bytes :=
  if p.mac.length ≠ 6 ∨ p.ip.length ≠ 4 then []
  else
    [[0xff, 0xff, 0xff, 0xff, 0xff, 0xff] ++ p.mac ++ beBytes 2 0x0806 ++ beBytes 2 1 ++
      beBytes 2 0x0800 ++
      [6, 4] ++ beBytes 2 1 ++ p.mac ++ p.ip ++ [0, 0, 0, 0, 0, 0] ++ p.ip ++ List.replicate 18 0]

/-- `capabilitiesFrame`: the flags, whether they are of the port's VMM, and whether the
frame is one of capabilities. -/
def capabilitiesFrame (p : Port) (f : Bytes) : UInt8 × Bool × Bool :=
  if f.length < 14 ∨ etherType f ≠ switchCapsType then (0, false, false)
  else if f.length < 20 ∨ slice f 14 4 ≠ switchCapsMagic ∨ byteAt f 18 ≠ 1 ∨
    slice f 6 6 ≠ p.mac then
    (0, false, true)
  else (f.getD 19 0, true, true)

def validLarge (f : Bytes) : Bool :=
  if f.length ≤ 14 + nativeMTU then true
  else slice f 0 6 = gatewayMAC && etherType f = 0x0800 && 54 ≤ f.length && byteAt f 23 = 6 &&
    uint16 f 16 = f.length - 14

def headerLength (f : Bytes) : Nat := (byteAt f 14 % 16) * 4

def validSource (p : Port) (f : Bytes) : Bool :=
  if p.mac = [] then true
  else if f.length < 14 ∨ slice f 6 6 ≠ p.mac then false
  else if etherType f = 0x0800 then
    34 ≤ f.length && byteAt f 14 / 16 = 4 && 20 ≤ headerLength f &&
      14 + headerLength f ≤ f.length &&
      slice f 26 4 = p.ip
  else if etherType f = 0x0806 then
    42 ≤ f.length && uint16 f 14 = 1 && uint16 f 16 = 0x0800 && byteAt f 18 = 6 &&
      byteAt f 19 = 4 &&
      slice f 22 6 = p.mac && (slice f 28 4 = p.ip || slice f 28 4 = [0, 0, 0, 0])
  else false

/-- A frame on the wire. -/
def wire (f : Bytes) : Bytes := beBytes 4 f.length ++ f

structure Flow where
  mac : Bytes
  frames : Nat

/-- The reader.  The last two fields record what `capabilities` and `observe` are
called with; a port may lack them. -/
structure Reader where
  pending : Bytes
  input : Bytes
  flows : List Flow := List.replicate 4 ⟨[0, 0, 0, 0, 0, 0], 0⟩
  nextFlow : Nat := 0
  capabilities : List UInt8 := []
  observed : List Bytes := []

inductive ReadErr where
  | eof
  | length (size : Nat)
deriving DecidableEq

def readFull (n : Nat) (input : Bytes) : Except ReadErr (Bytes × Bytes) :=
  if n ≤ input.length then .ok (input.take n, input.drop n) else .error .eof

def nextFrame (input : Bytes) : Except ReadErr (Bytes × Bytes) := do
  let (first, input) ← readFull 1 input
  let (rest, input) ← readFull 3 input
  let size := beNat (first ++ rest)
  throwIf (size < 14 ∨ maxEthernetFrame < size) (.length size)
  readFull size input

/-- The slot of a destination: the one it has, or the next to be given away. -/
def flowSlot (r : Reader) (dst : Bytes) : Nat × Reader :=
  match r.flows.findIdx? fun flow => flow.mac = dst with
  | some slot => (slot, r)
  | none =>
    (r.nextFlow, { r with
      flows := r.flows.set r.nextFlow ⟨dst, 0⟩
      nextFlow := (r.nextFlow + 1) % 4 })

def Reader.count (r : Reader) (f : Bytes) : Reader :=
  if byteAt f 0 % 2 ≠ 0 then r
  else
    let dst := slice f 0 6
    let (slot, r) := flowSlot r dst
    let frames := ((r.flows[slot]?).elim 0 Flow.frames) + 1
    if peerPromoteFrames ≤ frames then
      { r with flows := r.flows.set slot ⟨dst, 0⟩, observed := r.observed ++ [dst] }
    else { r with flows := r.flows.set slot ⟨dst, frames⟩ }

def take (p : Port) (r : Reader) (f : Bytes) : Reader :=
  match capabilitiesFrame p f with
  | (flags, ours, true) => if ours then { r with capabilities := r.capabilities ++ [flags] } else r
  | _ =>
    if !validSource p f || !validLarge f then r
    else { r.count f with pending := wire f }

/-- The loop of `Read`, which ends as every round takes bytes of the stream. -/
def fill (p : Port) : Nat → Reader → Reader × Option ReadErr
  | 0, r => (r, none)
  | fuel + 1, r =>
    if r.pending ≠ [] then (r, none)
    else
      match nextFrame r.input with
      | .error e => (r, some e)
      | .ok (f, rest) => fill p fuel (take p { r with input := rest } f)

def read (p : Port) (r : Reader) (n : Nat) : Reader × Except ReadErr Bytes :=
  if n = 0 then (r, .ok [])
  else
    match fill p (r.input.length + 1) r with
    | (r, some e) => (r, .error e)
    | (r, none) => ({ r with pending := r.pending.drop n }, .ok (r.pending.take n))

/-- `newEthernetConn` on a stream. -/
def newEthernetConn (p : Port) (input : Bytes) : Reader :=
  { pending := (announcement p).flatMap wire, input }

/-- What reads into buffers of these sizes deliver, up to the first that fails. -/
def reads (p : Port) : Reader → List Nat → Bytes × Option ReadErr
  | _, [] => ([], none)
  | r, n :: sizes =>
    match read p r n with
    | (_, .error e) => ([], some e)
    | (r, .ok b) => ((b ++ (reads p r sizes).1), (reads p r sizes).2)

end Jerboa.Native
