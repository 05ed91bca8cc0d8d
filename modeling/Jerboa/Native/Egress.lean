import Jerboa.Lib.Run
import Jerboa.Lib.Tally
import Jerboa.Net.Address

/-!
# The egress pool

`nativeEgressPool` of package `network`: the host flows of the VMs of a network, within
limits for each VM and for all.  Threads call its operations at the same time.  A step is
what happens under one lock; `close` is the body of a `sync.Once`, which is three such
steps of the thread that came first, and the others wait until it is done.
-/

namespace Jerboa.Native.Egress

open Net.Address Lib.Tally

def maxEgressFlowsPerVM : Int := 64

def maxEgressFlows : Int := 256

def maxPublishedFlowsPerVM : Int := 512

def maxPublishedFlows : Int := 1024

/-- A `*nativeFlow`, with the fields that never change. -/
structure Flow where
  id : Nat
  source : Text
  tag : Text
  deriving DecidableEq

/-- `nativeEgressPool`. -/
structure Pool where
  flows : List Flow
  counts : Text → Option Int
  publishedCounts : Text → Option Int
  egressTotal : Int
  publishedTotal : Int
  sources : Text → Bool
  closed : Bool

def newEgressPool : Pool :=
  ⟨[], fun _ => none, fun _ => none, 0, 0, fun _ => false, false⟩

namespace Pool

def activateSource (p : Pool) (source : Text) : Pool :=
  { p with sources := Function.update p.sources source true }

/-- `reserveTagged`, where the flow is the one it would make. -/
def reserveTagged (p : Pool) (f : Flow) : Option Pool :=
  if p.closed ∨ p.sources f.source = false then none
  else if f.tag = [] ∧ (maxEgressFlows ≤ p.egressTotal ∨
    maxEgressFlowsPerVM ≤ count p.counts f.source) then none
  else if f.tag ≠ [] ∧ (maxPublishedFlows ≤ p.publishedTotal ∨
      maxPublishedFlowsPerVM ≤ count p.publishedCounts f.source) then none
  else if f.tag = [] then
    some { p with
      flows := f :: p.flows
      counts := incr p.counts f.source
      egressTotal := p.egressTotal + 1 }
  else
    some { p with
      flows := f :: p.flows
      publishedCounts := incr p.publishedCounts f.source
      publishedTotal := p.publishedTotal + 1 }

/-- What `close` does under the pool's lock. -/
def remove (p : Pool) (f : Flow) : Pool :=
  if f.tag = [] then
    { p with
      flows := p.flows.erase f
      counts := decr p.counts f.source
      egressTotal := p.egressTotal - 1 }
  else
    { p with
      flows := p.flows.erase f
      publishedCounts := decr p.publishedCounts f.source
      publishedTotal := p.publishedTotal - 1 }

/-- `closeSource` under the pool's lock. -/
def closeSource (p : Pool) (source : Text) : Pool :=
  { p with
    closed := p.closed || source = []
    sources := Function.update p.sources source false }

end Pool

/-- The flows that `closeSource` is about: all of them for the empty source. -/
def Covers (source : Text) (f : Flow) : Prop := source = [] ∨ f.source = source
deriving Decidable

/-! ## Threads -/

inductive Stage where
  | conns
  | pool
  | finish
  deriving DecidableEq

inductive Once where
  | fresh
  | body (thread : Nat) (stage : Stage)
  | done
  deriving DecidableEq

/-- The fields of a flow that change; a connection is open or not. -/
structure FlowState where
  once : Once := .fresh
  cancelled : Bool := false
  closed : Bool := false
  conns : List Bool := []

/-- The pool, the flows that were made, and for every thread that is in `close`,
`closeSource` or `closeTag` the flows it has yet to close. -/
structure State where
  pool : Pool
  made : List Flow
  flow : Flow → FlowState
  todo : Nat → Option (List Flow)

def init : State := ⟨newEgressPool, [], fun _ => {}, fun _ => none⟩

inductive Action where
  | activateSource (source : Text)
  | reserveTagged (source tag : Text)
  | add (f : Flow)
  | close (thread : Nat) (f : Flow)
  | closeSource (thread : Nat) (source : Text) (flows : List Flow)
  | closeTag (thread : Nat) (tag : Text) (flows : List Flow)
  | goOn (thread : Nat)
  deriving DecidableEq

namespace State

def setFlow (s : State) (f : Flow) (x : FlowState) : State :=
  { s with flow := Function.update s.flow f x }

def setTodo (s : State) (thread : Nat) (todo : Option (List Flow)) : State :=
  { s with todo := Function.update s.todo thread todo }

def nextFlow (s : State) (source tag : Text) : Flow := ⟨s.made.length, source, tag⟩

def reserveTagged (s : State) (source tag : Text) : State :=
  match s.pool.reserveTagged (s.nextFlow source tag) with
  | none => s
  | some pool => { s with pool := pool, made := s.nextFlow source tag :: s.made }

def add (s : State) (f : Flow) : State :=
  if f ∈ s.made ∧ (s.flow f).closed = false then
    s.setFlow f { s.flow f with conns := true :: (s.flow f).conns }
  else s

def onceBody (s : State) (thread : Nat) (f : Flow) : Stage → State
  | .conns =>
    s.setFlow f { s.flow f with
      once := .body thread .pool
      closed := true
      conns := (s.flow f).conns.map fun _ => false }
  | .pool =>
    { s with pool := s.pool.remove f }.setFlow f { s.flow f with once := .body thread .finish }
  | .finish => s.setFlow f { s.flow f with once := .done }

/-- The next step of a thread: of the call of `close` it is in, or the return. -/
def goOn (s : State) (thread : Nat) : State :=
  match s.todo thread with
  | none => s
  | some [] => s.setTodo thread none
  | some (f :: flows) =>
    match (s.flow f).once with
    | .fresh => s.setFlow f { s.flow f with once := .body thread .conns, cancelled := true }
    | .body thread' stage => if thread' = thread then s.onceBody thread f stage else s
    | .done => s.setTodo thread (some flows)

def close (s : State) (thread : Nat) (f : Flow) : State :=
  if s.todo thread = none ∧ f ∈ s.made then s.setTodo thread (some [f]) else s

/-- The section of `closeSource`, which walks the map of flows in any order. -/
def closeSource (s : State) (thread : Nat) (source : Text) (flows : List Flow) : State :=
  if s.todo thread = none ∧ flows.Perm (s.pool.flows.filter (Covers source)) then
    { s with pool := s.pool.closeSource source }.setTodo thread (some flows)
  else s

def closeTag (s : State) (thread : Nat) (tag : Text) (flows : List Flow) : State :=
  if s.todo thread = none ∧ flows.Perm (s.pool.flows.filter (·.tag = tag)) then
    s.setTodo thread (some flows)
  else s

def step (s : State) : Action → State
  | .activateSource source => { s with pool := s.pool.activateSource source }
  | .reserveTagged source tag => s.reserveTagged source tag
  | .add f => s.add f
  | .close thread f => s.close thread f
  | .closeSource thread source flows => s.closeSource thread source flows
  | .closeTag thread tag flows => s.closeTag thread tag flows
  | .goOn thread => s.goOn thread

end State

end Jerboa.Native.Egress
