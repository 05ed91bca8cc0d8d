import Jerboa.Lib.Run
import Jerboa.Net.Address
import Mathlib.Data.List.AList

/-!
# Cluster membership

The member table of `SwimCluster` and everything that changes it: gossip from
peers, the answers to gossip of its own, the suspicion timer and the node's own
calls.

The entry of the node itself and `c.local` are one object, so the table holds
it once.  Instants are nanoseconds since Go's zero time, and the clock does not
go back.  A gossiped instant is represented by the value its text parses to,
the zero time for a text that does not parse, and a gossiped status by the one
it names.
-/

namespace Jerboa.Cluster

open Net.Address

inductive MemberStatus where
  | alive
  | suspect
  | dead
  | left
deriving DecidableEq, Repr

structure Member where
  id : Text
  addr : Text
  status : MemberStatus
  vmCount : Int
  cpuCap : Int
  memCap : Int
  lastSeen : Int
deriving DecidableEq, Repr

structure MemberEntry where
  id : Text
  addr : Text
  status : Option MemberStatus
  vmCount : Int
  cpuCap : Int
  memCap : Int
  lastSeen : Int

structure GossipPayload where
  memberId : Text
  members : List MemberEntry

def matchesMemberID (id : Text) : Bool :=
  0 < id.length && id.length ≤ 128 &&
    id.all fun c => c.isAlphanum || c == '.' || c == '_' || c == ':' || c == '-'

def splitLastColon (s : Text) : Option (Text × Text) :=
  if ':' ∈ s then
    some ((s.reverse.dropWhile (· ≠ ':')).tail.reverse, (s.reverse.takeWhile (· ≠ ':')).reverse)
  else none

def splitHostPort (s : Text) : Option (Text × Text) :=
  match splitLastColon s with
  | none => none
  | some (front, port) =>
    match front with
    | '[' :: rest =>
      -- the first ']' has to be the character before the last colon
      let host := rest.takeWhile (· ≠ ']')
      if rest = host ++ [']'] && !host.contains '[' && !port.contains '[' &&
          !port.contains ']' then
        some (host, port)
      else none
    | host =>
      if host.contains ':' || s.contains '[' || s.contains ']' then none else some (host, port)

/-- `validEntry`.  `refused` stands for the host texts that `net.ParseIP` takes
for a link-local, multicast or unspecified address. -/
def validEntry (refused : Text → Bool) (e : MemberEntry) : Bool :=
  matchesMemberID e.id &&
    match splitHostPort e.addr with
    | none => false
    | some (host, port) => host ≠ [] && port ≠ [] && !refused host && e.status.isSome

/-! ## The table -/

def second : Nat := 10 ^ 9

def suspTimeout : Nat := 15 * second

def deadTimeout : Nat := 30 * second

def maxMembers : Nat := 1024

def maxClockSkew : Nat := 60 * second

abbrev Members := AList fun _ : Text => Member

/-- `SwimCluster`, with the clock of its host. -/
structure Swim where
  localId : Text
  members : Members
  now : Nat

namespace Swim

def find (s : Swim) (id : Text) : Option Member := s.members.lookup id

def put (s : Swim) (m : Member) : Swim := { s with members := s.members.insert m.id m }

/-- `NewSwimCluster`. -/
def new (id addr : Text) (vmCount cpuCap memCap : Int) (now : Nat) : Swim where
  localId := id
  members := (∅ : Members).insert id ⟨id, addr, .alive, vmCount, cpuCap, memCap, 0⟩
  now := now

def recover (m : Member) : Member :=
  if m.status = .suspect then { m with status := .alive } else m

/-- What a member takes from an entry about it.  `self` tells that the member
sent it. -/
def takeEntry (status : MemberStatus) (self : Bool) (entryTime : Int) (e : MemberEntry)
    (m : Member) : Member :=
  if status = .dead ∨ (status = .left ∧ self = true) then { m with status := status }
  else if m.lastSeen < entryTime then
    { m with
      addr := if self then e.addr else m.addr
      vmCount := e.vmCount
      cpuCap := e.cpuCap
      memCap := e.memCap
      lastSeen := entryTime }
  else m

def mergeExisting (status : MemberStatus) (self : Bool) (entryTime : Int) (e : MemberEntry)
    (m : Member) : Member :=
  let m := takeEntry status self entryTime e m
  if status = .alive then recover m else m

def clampTime (now : Nat) (t : Int) : Int := if now + maxClockSkew < t then now else t

def mergeEntry (refused : Text → Bool) (sender : Text) (s : Swim) (e : MemberEntry) : Swim :=
  if e.id = s.localId then s
  else if !validEntry refused e then s
  else match e.status with
    | none => s
    | some status =>
      match s.find e.id with
      | none =>
        if maxMembers ≤ s.members.keys.length then s
        else s.put ⟨e.id, e.addr, status, e.vmCount, e.cpuCap, e.memCap,
          clampTime s.now e.lastSeen⟩
      | some m =>
        s.put (mergeExisting status (e.id = sender) (clampTime s.now e.lastSeen) e m)

def mergeEntries (refused : Text → Bool) (s : Swim) (p : GossipPayload) : Swim :=
  p.members.foldl (mergeEntry refused p.memberId) s

/-- The sender of a message was heard of `elapsed` after the merge. -/
def heard (s : Swim) (elapsed : Nat) (sender : Text) (f : Member → Member) : Swim :=
  let s := { s with now := s.now + elapsed }
  match s.find sender with
  | some m => s.put (f { m with lastSeen := s.now })
  | none => s

def handleGossip (refused : Text → Bool) (s : Swim) (p : GossipPayload) (elapsed : Nat) : Swim :=
  (s.mergeEntries refused p).heard elapsed p.memberId recover

def handleAnswer (refused : Text → Bool) (s : Swim) (p : GossipPayload) (elapsed : Nat) : Swim :=
  (s.mergeEntries refused p).heard elapsed p.memberId id

def leave (s : Swim) : Swim :=
  match s.find s.localId with
  | some m => s.put { m with status := .left }
  | none => s

def updateLocal (s : Swim) (vmCount cpuCap memCap : Int) : Swim :=
  match s.find s.localId with
  | some m => s.put { m with vmCount, cpuCap, memCap, lastSeen := s.now }
  | none => s

def suspicion (now : Nat) (m : Member) : Member :=
  let m := if m.status = .alive ∧ suspTimeout < now - m.lastSeen then
      { m with status := .suspect } else m
  if m.status = .suspect ∧ deadTimeout < now - m.lastSeen then { m with status := .dead } else m

def forgotten (now : Nat) (m : Member) : Bool :=
  (m.status = .dead || m.status = .left) && 10 * deadTimeout < now - m.lastSeen

def checkSuspicion (s : Swim) (id : Text) : Swim :=
  if id = s.localId then s
  else match s.find id with
    | none => s
    | some m =>
      let m := suspicion s.now m
      if forgotten s.now m then { s with members := s.members.erase id } else s.put m

def checkSuspicions (s : Swim) : Swim := s.members.keys.foldl checkSuspicion s

def markMember (addr : Text) (s : Swim) (id : Text) : Swim :=
  match s.find id with
  | none => s
  | some m =>
    if m.addr = addr ∧ id ≠ s.localId ∧ m.status = .alive then
      s.put { m with status := .suspect }
    else s

def markSuspect (s : Swim) (addr : Text) : Swim := s.members.keys.foldl (markMember addr) s

inductive Action where
  | tick (elapsed : Nat)
  /-- A peer's gossip, and how long after the merge the sender is marked. -/
  | gossip (p : GossipPayload) (elapsed : Nat)
  | answer (p : GossipPayload) (elapsed : Nat)
  | joined (p : GossipPayload)
  | unreachable (addr : Text)
  | suspicions
  | leave
  | update (vmCount cpuCap memCap : Int)

def step (refused : Text → Bool) (s : Swim) : Action → Swim
  | .tick elapsed => { s with now := s.now + elapsed }
  | .gossip p elapsed => s.handleGossip refused p elapsed
  | .answer p elapsed => s.handleAnswer refused p elapsed
  | .joined p => s.mergeEntries refused p
  | .unreachable addr => s.markSuspect addr
  | .suspicions => s.checkSuspicions
  | .leave => s.leave
  | .update vmCount cpuCap memCap => s.updateLocal vmCount cpuCap memCap

end Swim

end Jerboa.Cluster
