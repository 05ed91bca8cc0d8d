import Jerboa.Heap.Lookup
import Jerboa.Lib.Run

/-!
# Live allocations

The id heap with a ledger of what is live: the allocations that were made and not undone,
and the areas that were set and not cleared.  Live allocations do not meet as long as
every search begins at an aligned bit and the numbers fit their `int` or `u64`.
-/

namespace Jerboa.Heap

open Lib Lib.Run

structure Alloc where
  addr : Nat
  count : Nat
  deriving DecidableEq

def Alloc.pages (a : Alloc) (pageSize : Nat) : Nat := (a.count + pageSize - 1) / pageSize

def Alloc.range (a : Alloc) (pageSize : Nat) : Range :=
  .ofLength (a.addr / pageSize) (a.pages pageSize)

structure Area where
  q : Range
  validated : Bool
  deriving DecidableEq

structure System where
  heap : IdHeap
  live : List Alloc
  areas : List Area

/-- `allocate_id_heap`. -/
def init (pageOrder : Nat) (parent : Option Nat) : System :=
  ⟨⟨pageOrder, [], 0, false, parent⟩, [], []⟩

/-- The calls; with an allocation goes what `random_u64` and the parent answer. -/
inductive Action where
  | addRange (base length : Nat)
  | alloc (count : Nat) (random : Nat → Nat) (base : Option Nat)
  | allocSubrange (count start stop : Nat) (random : Nat → Nat)
  | dealloc (a : Alloc) (count : Nat)
  | setArea (base length : Nat) (validate allocate : Bool)
  | setRandomize (randomize : Bool)

namespace System

def pageSize (s : System) : Nat := s.heap.pageSize

abbrev pagesFor (s : System) (count : Nat) : Nat := Alloc.pages ⟨0, count⟩ s.pageSize

def granted (s : System) (count : Nat) (x : IdHeap × Option Nat) : System :=
  match x.2 with
  | none => { s with heap := x.1 }
  | some addr => { s with heap := x.1, live := ⟨addr, count⟩ :: s.live }

/-- Only live allocations are deallocated. -/
def step (s : System) : Action → System
  | .addRange base length => { s with heap := (s.heap.addRange base length).getD s.heap }
  | .alloc count random base => s.granted count (s.heap.alloc count random base)
  | .allocSubrange count start stop random =>
    s.granted count (s.heap.allocSubrange count start stop random)
  | .dealloc a count =>
    if a ∈ s.live then { s with heap := s.heap.dealloc a.addr count, live := s.live.erase a }
    else s
  | .setArea base length validate allocate =>
    let area : Area := ⟨s.heap.areaPages base length, validate⟩
    let x := s.heap.setArea base length validate allocate
    { s with
      heap := x.1
      areas := if x.2 then (if allocate then area :: s.areas else s.areas.erase area) else s.areas }
  | .setRandomize randomize => { s with heap := { s.heap with randomize := randomize } }

/-- Sizes of what is live: the pages of the allocations and of the areas that were counted. -/
def liveBytes (s : System) : Nat :=
  (s.live.map fun a => a.pages s.pageSize * s.pageSize).sum +
    ((s.areas.filter Area.validated).map fun x => x.q.span * s.pageSize).sum

structure Safe (s : System) : Prop where
  disjoint : s.live.Pairwise fun a b => Apart (a.range s.pageSize) (b.range s.pageSize)
  areas : ∀ a ∈ s.live, ∀ x ∈ s.areas, Apart (a.range s.pageSize) x.q
  inside : ∀ a ∈ s.live, ∃ r ∈ s.heap.ranges, ∀ p ∈ a.range s.pageSize, p ∈ r.r
  aligned : ∀ a ∈ s.live, s.pageSize * 2 ^ Nat.clog 2 (a.pages s.pageSize) ∣ a.addr
  allocated : s.heap.allocated = s.liveBytes

/-- The bits of a range that is added can be numbered with an `int`, and its end is a
`u64`. -/
def FitsRange (i : IdHeap) (base length : Nat) : Prop :=
  i.rangeLength base length / i.pageSize + base / i.pageSize % 64 < 2 ^ 31 ∧
    base + i.rangeLength base length < 2 ^ 64
deriving Decidable

/-- An allocation of fewer pages than an `int` counts, whose search begins aligned in every
range. -/
def FitsAlloc (s : System) (count : Nat) (subrange : Range) (random : Nat → Nat) : Prop :=
  s.pagesFor count < 2 ^ 31 ∧ count + s.pageSize < 2 ^ 64 ∧
    ∀ r ∈ s.heap.ranges,
      IdHeap.Aligned s.heap.randomize r (s.pagesFor count) subrange (random r.r.start)
deriving Decidable

def FitsBacked (s : System) (count : Nat) (random : Nat → Nat) (base : Option Nat) : Prop :=
  ∀ parentSize ∈ s.heap.parent, ∀ b ∈ base,
    let length := ((count - 1) / parentSize + 1) * parentSize
    FitsRange s.heap b length ∧
      IdHeap.Aligned s.heap.randomize
        (IdHeap.newRange (b / s.pageSize) (s.heap.rangeLength b length / s.pageSize))
        (s.pagesFor count) IdHeap.wholeRange (random (b / s.pageSize))
deriving Decidable

/-- All the pages of the allocation, and nothing else. -/
def FitsDealloc (s : System) (a : Alloc) (count : Nat) : Prop :=
  count = a.pages s.pageSize * s.pageSize
deriving Decidable

/-- The end of the area is a `u64`.  An area is set where nothing is live, or is
validated; it is cleared where nothing else is live, and as it was set if the counter
counts it. -/
def FitsArea (s : System) (base length : Nat) (validate allocate : Bool) : Prop :=
  base - base % s.pageSize + pad length s.pageSize < 2 ^ 64 ∧
  let q := s.heap.areaPages base length
  if allocate then validate = true ∨ ∀ a ∈ s.live, Apart (a.range s.pageSize) q
  else (validate = true → ⟨q, true⟩ ∈ s.areas) ∧ (∀ a ∈ s.live, Apart (a.range s.pageSize) q) ∧
    ∀ x ∈ s.areas.erase ⟨q, validate⟩, Apart x.q q
deriving Decidable

/-- The condition under which a step is safe. -/
def Fits (s : System) : Action → Prop
  | .addRange base length => FitsRange s.heap base length
  | .alloc count random base =>
    s.FitsAlloc count IdHeap.wholeRange random ∧ s.FitsBacked count random base
  | .allocSubrange count start stop random =>
    s.FitsAlloc count (s.heap.subrangePages start stop) random
  | .dealloc a count => s.FitsDealloc a count
  | .setArea base length validate allocate => s.FitsArea base length validate allocate
  | .setRandomize _ => True

instance (s : System) (a : Action) : Decidable (s.Fits a) := by
  cases a <;> unfold Fits <;> infer_instance

end System

end Jerboa.Heap
