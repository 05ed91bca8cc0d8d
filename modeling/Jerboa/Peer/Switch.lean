import Mathlib.Algebra.Group.Nat.Defs
import Mathlib.Data.List.AList
import Jerboa.Lib.Run

/-!
# The peer switch

The control plane for direct links between the virtual machines of one network.
A member is a registered machine, a session is a control connection of its
monitor, and a pair is a link between two members, made when one of them sends
enough frames to the other.  Members, sessions and pairs are objects on the
heap, named here by numbers in the order they were made; the tables map addresses
to such numbers.

A locked operation is a function on the whole state.  Removing a pair queues a
message on both sides, a full queue ends its session, and ending a session
removes its pairs: `endSessionLocked` counts down the depth of that recursion,
and the other two take it as an argument.

Each session has a writer that shares only its queue with the holder of the
lock.  It moves between two operations, and also inside one after each message
that is queued: no other access of a locked operation meets it.
-/

namespace Jerboa.Peer

open Function Lib.Run

abbrev MAC := BitVec 48

abbrev IPv4 := BitVec 32

abbrev PairKey := BitVec 96

/-- The two addresses in ascending order, so that a pair has one key. -/
def makePairKey (a b : MAC) : PairKey := if b < a then b ++ a else a ++ b

inductive Kind
  | hello
  | welcome
  | add
  | del
  | ack
  | dead
  | reset
  | stats
  | idle
  deriving DecidableEq, Repr

/-- A control message; `value` is a pair's number, or a set of features. -/
structure Message where
  kind : Kind
  flags : Nat := 0
  epoch : Nat := 0
  value : Nat := 0
  mac : MAC := 0
  ip : IPv4 := 0
  deriving DecidableEq, Repr

def peerFeatures : Nat := 3

def peerMaxPerVM : Int := 64

def peerOutQueue : Nat := 128

def peerRetryMin : Nat := 1000000000

def peerRetryMax : Nat := 60000000000

/-! ## Objects -/

structure Member where
  mac : MAC := 0
  ip : IPv4 := 0
  session : Option Nat := none
  pairs : Int := 0
  tx : Nat := 0
  rx : Nat := 0

structure PeerOut where
  msg : Message
  fd : Option Nat

/-- The writer of a session waits for a message or the end of the session, has a
message in its hands, has failed to write one, or drains the queue before it
returns. -/
inductive Writer
  | waiting
  | writing (o : PeerOut)
  | failed
  | draining

structure Session where
  member : Nat := 0
  epoch : Nat := 0
  out : List PeerOut := []
  closed : Bool := true
  writer : Writer := .draining

/-- `held` is the switch's own reference to each end of the link, `none` once it
is closed. -/
structure Pair where
  id : Nat := 0
  key : PairKey := 0
  side : Fin 2 → Nat := fun _ => 0
  held : Fin 2 → Option Nat := fun _ => none
  acked : Fin 2 → Bool := fun _ => false

structure Backoff where
  untilTime : Nat := 0
  delay : Nat := 0

/-- What the switch does that can be seen from outside it, and what happens to
its pairs.  A descriptor is named by the call that made it, since its number can
be given out again once it is closed. -/
inductive Event
  | opened (fd : Nat)
  | duped (fd dup : Nat)
  | sent (fd : Nat)
  | closed (fd : Nat)
  | queued (s : Nat) (msg : Message)
  | removed (id : Nat)
  deriving DecidableEq, Repr

/-- The state of the switch.  `sends` counts the messages given to a queue, and
`log` is what happened so far, the newest event first. -/
structure Switch where
  members : MAC → Option Nat := fun _ => none
  memberAt : Nat → Member := fun _ => {}
  nextMember : Nat := 0
  sessionAt : Nat → Session := fun _ => {}
  nextSession : Nat := 0
  pairs : AList (fun _ : PairKey => Nat) := ∅
  pairAt : Nat → Pair := fun _ => {}
  nextPair : Nat := 0
  byID : Nat → Option Nat := fun _ => none
  retry : PairKey → Backoff := fun _ => {}
  epoch : Nat := 0
  nextID : Nat := 0
  nextFD : Nat := 0
  sends : Nat := 0
  log : List Event := []

def newPeering : Switch := {}

/-- What a session's writer does by itself: it takes a message, writes the one it
has, sees that the session is over, or drops a message on its way out. -/
inductive Move
  | take (s : Nat)
  | write (s : Nat) (ok : Bool)
  | quit (s : Nat)
  | drain (s : Nat)

/-- What the operations do not decide: in which order a walk of the pair table
visits its entries, for each session that ends, and what the writers do after
each message given to a queue. -/
structure Env where
  order : Nat → List Nat → List Nat
  perm : ∀ s l, (order s l).Perm l
  moves : Nat → List Move

namespace Switch

variable (σ : Switch)

def setMember (m : Nat) (f : Member → Member) : Switch :=
  { σ with memberAt := update σ.memberAt m (f (σ.memberAt m)) }

def setSession (s : Nat) (f : Session → Session) : Switch :=
  { σ with sessionAt := update σ.sessionAt s (f (σ.sessionAt s)) }

def setPair (r : Nat) (f : Pair → Pair) : Switch :=
  { σ with pairAt := update σ.pairAt r (f (σ.pairAt r)) }

def note (e : Event) : Switch := { σ with log := e :: σ.log }

def memberOf (r : Nat) (i : Fin 2) : Nat := (σ.sessionAt ((σ.pairAt r).side i)).member

def involves (m r : Nat) : Bool := σ.memberOf r 0 == m || σ.memberOf r 1 == m

def pairOf (key : PairKey) : Option Nat := σ.pairs.lookup key

def InTable (r : Nat) : Prop := σ.pairOf (σ.pairAt r).key = some r
deriving Decidable

def pairRefs : List Nat := σ.pairs.entries.map (·.2)

def closeFD : Option Nat → Switch
  | none => σ
  | some fd => σ.note (.closed fd)

/-- Write the message in hand: its descriptor is sent with it, and closed. -/
def writeOut (s : Nat) (o : PeerOut) (ok : Bool) : Switch :=
  let σ := match o.fd with
    | none => σ
    | some fd => (σ.note (.sent fd)).note (.closed fd)
  σ.setSession s fun t => { t with writer := if ok then .waiting else .failed }

/-- One move of a writer; one that cannot happen changes nothing. -/
def move : Move → Switch
  | .take s =>
    match (σ.sessionAt s).writer, (σ.sessionAt s).out with
    | .waiting, o :: rest =>
      σ.setSession s fun t => { t with out := rest, writer := .writing o }
    | _, _ => σ
  | .write s ok =>
    match (σ.sessionAt s).writer with
    | .writing o => σ.writeOut s o ok
    | _ => σ
  | .quit s =>
    match (σ.sessionAt s).writer, (σ.sessionAt s).closed with
    | .waiting, true => σ.setSession s fun t => { t with writer := .draining }
    | _, _ => σ
  | .drain s =>
    match (σ.sessionAt s).writer, (σ.sessionAt s).out with
    | .draining, o :: rest => (σ.setSession s fun t => { t with out := rest }).closeFD o.fd
    | _, _ => σ

def writers (env : Env) : Switch :=
  (env.moves σ.sends).foldl move { σ with sends := σ.sends + 1 }

/-! ## Queues, sessions and pairs, under the lock -/

def push (s : Nat) (msg : Message) (fd : Option Nat) : Switch :=
  (σ.setSession s fun t => { t with out := t.out ++ [⟨msg, fd⟩] }).note (.queued s msg)

def enqueueLocked (endSession : Nat → Switch → Switch) (env : Env) (s : Nat) (msg : Message)
    (fd : Option Nat) : Switch :=
  if (σ.sessionAt s).closed then
    (σ.closeFD fd).writers env
  else if (σ.sessionAt s).out.length < peerOutQueue then
    (σ.push s msg fd).writers env
  else
    endSession s ((σ.closeFD fd).writers env)

def unlink (r : Nat) : Switch :=
  { σ with
    pairs := σ.pairs.erase (σ.pairAt r).key
    byID := update σ.byID (σ.pairAt r).id none
    log := .removed (σ.pairAt r).id :: σ.log }

/-- One side of a removed pair gives up its end of the link and its place in the
member's count. -/
def settle (r : Nat) (i : Fin 2) : Switch :=
  ((σ.closeFD ((σ.pairAt r).held i)).setPair r
    fun pr => { pr with held := update pr.held i none }).setMember (σ.memberOf r i)
      fun m => { m with pairs := m.pairs - 1 }

def delMessage (r : Nat) (i : Fin 2) : Message :=
  { kind := .del, epoch := (σ.sessionAt ((σ.pairAt r).side i)).epoch, value := (σ.pairAt r).id }

def withdraw (endSession : Nat → Switch → Switch) (env : Env) (r : Nat) (i : Fin 2) : Switch :=
  let σ := σ.settle r i
  σ.enqueueLocked endSession env ((σ.pairAt r).side i) (σ.delMessage r i) none

def backoff (key : PairKey) (now : Nat) : Switch :=
  let delay := min (max (2 * (σ.retry key).delay) peerRetryMin) peerRetryMax
  { σ with retry := update σ.retry key { untilTime := now + delay, delay } }

/-- `failed` is the time when the pair failed, and `none` if it did not. -/
def removePairLocked (endSession : Nat → Switch → Switch) (env : Env) (r : Nat)
    (failed : Option Nat) : Switch :=
  if ¬ σ.InTable r then σ
  else
    let key := (σ.pairAt r).key
    let σ := σ.unlink r
    let σ := σ.withdraw endSession env r 0
    let σ := σ.withdraw endSession env r 1
    match failed with
    | none => σ
    | some now => σ.backoff key now

def shut (s : Nat) : Switch :=
  let m := (σ.sessionAt s).member
  let σ := σ.setSession s fun t => { t with closed := true }
  if (σ.memberAt m).session = some s then σ.setMember m fun t => { t with session := none } else σ

def visit (endSession : Nat → Switch → Switch) (env : Env) (s r : Nat) : Switch :=
  if (σ.pairAt r).side 0 = s ∨ (σ.pairAt r).side 1 = s then
    σ.removePairLocked endSession env r none
  else σ

end Switch

/-- The walk visits the entries the table has when it starts.  One that is removed
meanwhile is passed over, which is what `removePairLocked` does with it. -/
def endSessionLocked (env : Env) : Nat → Nat → Switch → Switch
  | 0, _, σ => σ
  | fuel + 1, s, σ =>
    if (σ.sessionAt s).closed then σ
    else
      let σ := σ.shut s
      (env.order s σ.pairRefs).foldl (fun σ r => σ.visit (endSessionLocked env fuel) env s r) σ

namespace Switch

variable (σ : Switch)

/-- `endSessionLocked` with all the depth it can use: each call inside another
ends one more session. -/
def endSession (env : Env) (s : Nat) : Switch := endSessionLocked env (σ.nextSession + 1) s σ

def endSession? (env : Env) : Option Nat → Switch
  | none => σ
  | some s => σ.endSession env s

def enqueue (env : Env) (s : Nat) (msg : Message) (fd : Option Nat) : Switch :=
  σ.enqueueLocked (endSessionLocked env (σ.nextSession + 1)) env s msg fd

def removePair (env : Env) (r : Nat) (failed : Option Nat) : Switch :=
  σ.removePairLocked (endSessionLocked env (σ.nextSession + 1)) env r failed

/-! ## The operations -/

def enroll (mac : MAC) (ip : IPv4) : Switch :=
  { σ with
    members := update σ.members mac (some σ.nextMember)
    memberAt := update σ.memberAt σ.nextMember { mac, ip }
    nextMember := σ.nextMember + 1 }

def register (env : Env) (mac : MAC) (ip : IPv4) : Switch :=
  let σ := match σ.members mac with
    | none => σ
    | some old => σ.endSession? env (σ.memberAt old).session
  σ.enroll mac ip

def keyHas (key : PairKey) (mac : MAC) : Bool :=
  key.extractLsb' 48 48 == mac || key.extractLsb' 0 48 == mac

/-- The member leaves the table, if it is still the one under its address, and the
pairs with its address may be tried again. -/
def strike (m : Nat) : Switch :=
  let mac := (σ.memberAt m).mac
  { σ with
    members := if σ.members mac = some m then update σ.members mac none else σ.members
    retry := fun key => if keyHas key mac then {} else σ.retry key }

def unregister (env : Env) (m : Nat) : Switch :=
  (σ.endSession? env (σ.memberAt m).session).strike m

def welcomeMessage (m : Nat) : Message :=
  { kind := .welcome, epoch := σ.epoch, mac := (σ.memberAt m).mac, ip := (σ.memberAt m).ip }

def install (m : Nat) : Switch :=
  let s := σ.nextSession
  let epoch := (σ.epoch + 1) % 2 ^ 64
  { σ with
    epoch
    sessionAt := update σ.sessionAt s
      { member := m, epoch, out := [], closed := false, writer := .waiting }
    nextSession := s + 1
    memberAt := update σ.memberAt m { σ.memberAt m with session := some s } }

/-- `session`, up to the loop that reads messages: a connection that says hello in
the member's name and with all features becomes its session. -/
def session (env : Env) (m : Nat) (hello : Message) : Switch :=
  if hello.kind ≠ .hello ∨ hello.mac ≠ (σ.memberAt m).mac then σ
  else if hello.value &&& peerFeatures ≠ peerFeatures then σ
  else if σ.members (σ.memberAt m).mac ≠ some m then σ
  else
    let σ := σ.endSession? env (σ.memberAt m).session
    let s := σ.nextSession
    let σ := σ.install m
    σ.enqueue env s (σ.welcomeMessage m) none

/-- The two sessions `observe` pairs, unless it has a reason not to. -/
def pairable (src : Nat) (dst : MAC) (now : Nat) : Option (Nat × Nat × Nat) :=
  match σ.members dst with
  | none => none
  | some d =>
    if d = src then none
    else
      match (σ.memberAt src).session, (σ.memberAt d).session with
      | some a, some b =>
        if peerMaxPerVM ≤ (σ.memberAt src).pairs ∨ peerMaxPerVM ≤ (σ.memberAt d).pairs then none
        else
          let key := makePairKey (σ.memberAt src).mac dst
          if (σ.pairOf key).isSome ∨ now < (σ.retry key).untilTime then none
          else some (d, a, b)
      | _, _ => none

/-- The next number of a pair, a 32-bit counter that leaves out zero. -/
def newID : Nat :=
  let id := (σ.nextID + 1) % 2 ^ 32
  if id = 0 then 1 else id

def link (src d a b : Nat) (key : PairKey) : Switch :=
  let r := σ.nextPair
  let pr : Pair :=
    { id := σ.newID
      key
      side := fun i => if i = 0 then a else b
      held := fun i => if i = 0 then some σ.nextFD else some (σ.nextFD + 1) }
  let σ' : Switch :=
    { σ with
      pairs := σ.pairs.insert key r
      pairAt := update σ.pairAt r pr
      nextPair := r + 1
      byID := update σ.byID σ.newID (some r)
      nextID := σ.newID
      nextFD := σ.nextFD + 2
      log := .opened (σ.nextFD + 1) :: .opened σ.nextFD :: σ.log }
  (σ'.setMember src fun m => { m with pairs := m.pairs + 1 }).setMember d
    fun m => { m with pairs := m.pairs + 1 }

def addMessage (r : Nat) (i : Fin 2) : Message :=
  let other := σ.memberAt (σ.memberOf r (1 - i))
  { kind := .add, epoch := (σ.sessionAt ((σ.pairAt r).side i)).epoch, value := (σ.pairAt r).id
    mac := other.mac, ip := other.ip }

def dupFD (fd : Nat) : Switch :=
  { σ with nextFD := σ.nextFD + 1, log := .duped fd σ.nextFD :: σ.log }

def offer (env : Env) (r : Nat) (fd : Nat) (i : Fin 2) : Switch :=
  (σ.dupFD fd).enqueue env ((σ.pairAt r).side i) (σ.addMessage r i) (some σ.nextFD)

/-- `observe` at time `now`.  `socket` and `dup` say whether the system calls
succeed, and `later` is the time if one of the latter does not. -/
def observe (env : Env) (src : Nat) (dst : MAC) (now : Nat) (socket : Bool) (dup : Fin 2 → Bool)
    (later : Nat) : Switch :=
  match σ.pairable src dst now with
  | none => σ
  | some (d, a, b) =>
    if ¬ socket then σ
    else
      let r := σ.nextPair
      let fd := σ.nextFD
      let σ := σ.link src d a b (makePairKey (σ.memberAt src).mac dst)
      if ¬ dup 0 then σ.removePair env r (some later)
      else
        let σ := σ.offer env r fd 0
        if ¬ dup 1 then σ.removePair env r (some later)
        else σ.offer env r (fd + 1) 1

def expire (env : Env) (r : Nat) (now : Nat) : Switch :=
  if σ.byID (σ.pairAt r).id = some r ∧ ¬ ((σ.pairAt r).acked 0 ∧ (σ.pairAt r).acked 1) then
    σ.removePair env r (some now)
  else σ

def find (s : Nat) (msg : Message) : Option (Nat × Fin 2) :=
  match σ.byID msg.value with
  | none => none
  | some r =>
    if msg.epoch ≠ (σ.sessionAt s).epoch then none
    else if (σ.pairAt r).side 0 = s then some (r, 0)
    else if (σ.pairAt r).side 1 = s then some (r, 1)
    else none

/-- The monitor has its end of the link: the switch's own is closed. -/
def accept (r : Nat) (i : Fin 2) : Switch :=
  (σ.closeFD ((σ.pairAt r).held i)).setPair r fun pr =>
    { pr with held := update pr.held i none, acked := update pr.acked i true }

def acked (env : Env) (s : Nat) (msg : Message) (now : Nat) : Switch :=
  match σ.find s msg with
  | none => σ
  | some (r, i) => if msg.flags ≠ 1 then σ.removePair env r (some now) else σ.accept r i

def dead (env : Env) (s : Nat) (msg : Message) (now : Nat) : Switch :=
  match σ.find s msg with
  | none => σ
  | some (r, _) => σ.removePair env r (some now)

def idle (env : Env) (s : Nat) (msg : Message) : Switch :=
  match σ.find s msg with
  | none => σ
  | some (r, _) => σ.removePair env r none

def receive (env : Env) (s : Nat) (msg : Message) (now : Nat) : Switch :=
  match msg.kind with
  | .ack => σ.acked env s msg now
  | .dead => σ.dead env s msg now
  | .idle => σ.idle env s msg
  | .stats =>
    σ.setMember (σ.sessionAt s).member fun m => { m with tx := msg.epoch, rx := msg.value }
  | _ => σ

/-- The writer ends the session whose message it could not write. -/
def writeFailed (env : Env) (s : Nat) : Switch :=
  match (σ.sessionAt s).writer with
  | .failed => (σ.endSession env s).setSession s fun t => { t with writer := .draining }
  | _ => σ

end Switch

/-- What can happen while the lock is free. -/
inductive Op
  | register (mac : MAC) (ip : IPv4)
  | unregister (m : Nat)
  | session (m : Nat) (hello : Message)
  | receive (s : Nat) (msg : Message) (now : Nat)
  | hangup (s : Nat)
  | observe (src : Nat) (dst : MAC) (now : Nat) (socket : Bool) (dup : Fin 2 → Bool) (later : Nat)
  | expire (r : Nat) (now : Nat)
  | move (m : Move)
  | writeFailed (s : Nat)

/-- One operation.  One on an object that was never made changes nothing. -/
def step (env : Env) (σ : Switch) : Op → Switch
  | .register mac ip => σ.register env mac ip
  | .unregister m => if m < σ.nextMember then σ.unregister env m else σ
  | .session m hello => if m < σ.nextMember then σ.session env m hello else σ
  | .receive s msg now => if s < σ.nextSession then σ.receive env s msg now else σ
  | .hangup s => if s < σ.nextSession then σ.endSession env s else σ
  | .observe src dst now socket dup later =>
    if src < σ.nextMember then σ.observe env src dst now socket dup later else σ
  | .expire r now => if r < σ.nextPair then σ.expire env r now else σ
  | .move m => σ.move m
  | .writeFailed s => if s < σ.nextSession then σ.writeFailed env s else σ

end Jerboa.Peer
