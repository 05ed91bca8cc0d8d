import Jerboa.Heap.Bitmap
import Jerboa.Lib.Range

/-!
# The id heap

`heap/id.c` of the kernel's runtime: allocations of pages from ranges, each of which has a
bitmap.  Ranges are in pages and in the order of their starts; a bitmap starts at a
multiple of its word length.  Where the source keeps a number in an `int`, so does the
model, and the end of a range is a `u64` that wraps around.  A failed `assert` stops the
kernel.
-/

namespace Jerboa.Heap

open Lib

def toInt (x : Nat) : Nat := ((BitVec.ofNat 32 x).signExtend 64).toNat

def nextBitCount : Nat := 10

def infinity : Nat := 2 ^ 64 - 1

def pad (x s : Nat) : Nat := (x + s - 1) / s * s

/-- `irangel`, whose sum is a `u64`. -/
def irangel (start length : Nat) : Range := ⟨start, (start + length) % 2 ^ 64⟩

theorem irangel_eq_ofLength {start length : Nat} (h : start + length < 2 ^ 64) :
    irangel start length = .ofLength start length := by
  rw [irangel, Nat.mod_eq_of_lt h]
  rfl

def intersection (a b : Range) : Range :=
  let start := max a.start b.start
  let stop := min a.stop b.stop
  if stop ≤ start then ⟨0, 0⟩ else ⟨start, stop⟩

structure IdRange where
  r : Range
  bitmap : Bitmap
  bitmapStart : Nat
  nextBit : Nat → Nat

def IdRange.getNextBit (r : IdRange) (order : Nat) : Nat := r.nextBit (min order (nextBitCount - 1))

def IdRange.setNextBit (r : IdRange) (order bit : Nat) : IdRange :=
  if order < nextBitCount then { r with nextBit := Function.update r.nextBit order bit } else r

/-- `id_heap`; `parent` is the page size of the parent, if there is one. -/
structure IdHeap where
  pageOrder : Nat
  ranges : List IdRange
  allocated : Nat
  randomize : Bool
  parent : Option Nat

namespace IdHeap

def pageSize (i : IdHeap) : Nat := 2 ^ i.pageOrder

def pagesFromBytes (i : IdHeap) (count : Nat) : Nat := toInt (pad count i.pageSize / i.pageSize)

def insertRange (r : IdRange) : List IdRange → List IdRange
  | [] => [r]
  | r' :: rs => if r.r.start ≤ r'.r.start then r :: r' :: rs else r' :: insertRange r rs

def rangeLength (i : IdHeap) (base length : Nat) : Nat :=
  if length = infinity then (length - base) / 2 ^ (i.pageOrder + 6) * 2 ^ (i.pageOrder + 6)
    else length

def newRange (pageStart pages : Nat) : IdRange where
  r := irangel pageStart pages
  bitmap :=
    { maxbits := pages + pageStart % 64
      map := (forRangeInMap (fun _ => 0) 0 (pageStart % 64) true true).1 }
  bitmapStart := pageStart - pageStart % 64
  nextBit := fun _ => 0

/-- `id_add_range` up to the insertion: what the asserts and the map of ranges let pass. -/
def checkRange (i : IdHeap) (base length : Nat) : Option IdRange :=
  let length := i.rangeLength base length
  if length < i.pageSize ∨ base % i.pageSize ≠ 0 ∨ length % i.pageSize ≠ 0 then none
  else
    let r := newRange (base / i.pageSize) (length / i.pageSize)
    if i.ranges.any fun r' => (intersection r'.r r.r).span ≠ 0 then none else some r

/-- `id_add_range`. -/
def addRange (i : IdHeap) (base length : Nat) : Option IdHeap :=
  (i.checkRange base length).map fun r => { i with ranges := insertRange r i.ranges }

/-- The part of a range that is searched, in bits, from an aligned start on. -/
def searchRange (r : IdRange) (pages : Nat) (subrange : Range) : Range :=
  let ri := intersection r.r subrange
  ⟨pad ri.start (2 ^ findOrder pages) - r.bitmapStart, ri.stop - r.bitmapStart⟩

def margin (ri : Range) (pages : Nat) : Nat :=
  let rounded := 2 ^ findOrder pages
  let span := ri.span / rounded * rounded
  if rounded < span then span - rounded else 0

/-- The bit at which the search begins: a random one or the one after the last allocation. -/
def startBit (randomize : Bool) (r : IdRange) (pages : Nat) (ri : Range) (random : Nat) : Nat :=
  if randomize ∧ 0 < margin ri pages then ri.start + random % margin ri pages
  else
    let next := r.getNextBit (findOrder pages)
    if next ∈ ri then min next (ri.start + margin ri pages) else ri.start

def allocFromRange (randomize : Bool) (r : IdRange) (pages : Nat) (subrange : Range)
    (random : Nat) :
    Option (IdRange × Nat) :=
  if (intersection r.r subrange).span = 0 then none
  else
    let ri := searchRange r pages subrange
    if ri.stop < ri.start ∨ ri.span < pages then none
    else
      let start := startBit randomize r pages ri random
      let found := (r.bitmap.allocInternal pages start ri.stop).or
        (if ri.start < start then r.bitmap.allocInternal pages ri.start start else none)
      found.map fun x =>
        ({ r with bitmap := x.1 }.setNextBit (findOrder pages) (x.2 + 2 ^ findOrder pages),
          r.bitmapStart + x.2)

/-- The loop over the ranges.  A range is tried once, with a random number of its own. -/
def allocFromRanges (randomize : Bool) (pages : Nat) (subrange : Range) (random : Nat → Nat) :
    List IdRange → Option (List IdRange × Nat)
  | [] => none
  | r :: rs =>
    match allocFromRange randomize r pages subrange (random r.r.start) with
    | some (r', page) => some (r' :: rs, page)
    | none => (allocFromRanges randomize pages subrange random rs).map fun x => (r :: x.1, x.2)

def grant (i : IdHeap) (pages : Nat) (x : List IdRange × Nat) : IdHeap × Option Nat :=
  ({ i with ranges := x.1, allocated := i.allocated + pages * i.pageSize }, some (x.2 * i.pageSize))

def wholeRange : Range := ⟨0, infinity⟩

/-- `id_get_backed_page` and the allocation from the range it adds; `base` is what the parent
allocates. -/
def allocBacked (i : IdHeap) (count pages : Nat) (random : Nat → Nat) (base : Option Nat) :
    IdHeap × Option Nat :=
  match i.parent, base with
  | some parentSize, some base =>
    let length := ((count - 1) / parentSize + 1) * parentSize
    match i.checkRange base length with
    | none => (i, none)
    | some r =>
      match allocFromRange i.randomize r pages wholeRange (random r.r.start) with
      | none => ({ i with ranges := insertRange r i.ranges }, none)
      | some (r', page) => i.grant pages (insertRange r' i.ranges, page)
  | _, _ => (i, none)

/-- `id_alloc`. -/
def alloc (i : IdHeap) (count : Nat) (random : Nat → Nat) (base : Option Nat) :
    IdHeap × Option Nat :=
  if count = 0 then (i, none)
  else
    let pages := i.pagesFromBytes count
    match allocFromRanges i.randomize pages wholeRange random i.ranges with
    | some x => i.grant pages x
    | none => i.allocBacked count pages random base

/-- `range_rshift` by the page order. -/
def rshift (i : IdHeap) (r : Range) : Range := ⟨r.start / i.pageSize, r.stop / i.pageSize⟩

def subrangePages (i : IdHeap) (start stop : Nat) : Range :=
  ⟨pad start i.pageSize / i.pageSize, if stop = infinity then infinity else stop / i.pageSize⟩

def allocSubrange (i : IdHeap) (count start stop : Nat) (random : Nat → Nat) :
    IdHeap × Option Nat :=
  let subrange := i.subrangePages start stop
  if count = 0 ∨ subrange.stop < subrange.start ∨ subrange.span = 0 ∨
    subrange.start = infinity then (i, none)
  else
    let pages := i.pagesFromBytes count
    if subrange.span < pages then (i, none)
    else
      match allocFromRanges i.randomize pages subrange random i.ranges with
      | some x => i.grant pages x
      | none => (i, none)

/-- `rangemap_range_lookup_with_gaps`, where a gap ends it: what the handler makes of the
state and of the ranges up to there, and whether it came to the end.  `last` is the end
of the range before. -/
def lookup {σ : Type} (q : Range) (handler : σ → IdRange → Option (σ × IdRange)) :
    σ → Nat → List IdRange → (σ × List IdRange) × Bool
  | x, last, [] => ((x, []), (intersection ⟨last, q.stop⟩ q).span = 0)
  | x, last, r :: rs =>
    if (intersection ⟨last, r.r.start⟩ q).span ≠ 0 then ((x, r :: rs), false)
    else if (intersection r.r q).span = 0 then
      let ((x, rs), ok) := lookup q handler x r.r.stop rs
      ((x, r :: rs), ok)
    else
      match handler x r with
      | none => ((x, r :: rs), false)
      | some (x, r) =>
        let ((x, rs), ok) := lookup q handler x r.r.stop rs
        ((x, r :: rs), ok)

/-- `dealloc_from_range`, with the counter, of which an assert says that it is large enough. -/
def deallocFromRange (q : Range) (pageSize allocated : Nat) (r : IdRange) :
    Option (Nat × IdRange) :=
  let ri := intersection q r.r
  let bit := toInt (ri.start - r.bitmapStart)
  let pages := ri.span
  let order := findOrder pages
  match r.bitmap.dealloc bit pages with
  | none => none
  | some bitmap =>
    let r := { r with bitmap := bitmap }
    let r :=
      if pages = 2 ^ order ∧ ri.start % pages = 0 ∧ bit < r.getNextBit order then
        r.setNextBit order bit
      else r
    if allocated < pages * pageSize then none else some (allocated - pages * pageSize, r)

def dealloc (i : IdHeap) (a count : Nat) : IdHeap :=
  if count = 0 ∨ a % i.pageSize ≠ 0 ∨ count % i.pageSize ≠ 0 then i
  else
    let q := i.rshift (irangel a count)
    let ((allocated, ranges), _) :=
      lookup q (deallocFromRange q i.pageSize) i.allocated q.start i.ranges
    { i with ranges := ranges, allocated := allocated }

def setIntersection (q : Range) (validate allocate : Bool) (x : Unit) (r : IdRange) :
    Option (Unit × IdRange) :=
  let ri := intersection q r.r
  let bit := toInt (ri.start - r.bitmapStart)
  (r.bitmap.rangeCheckAndSet bit ri.span validate allocate).map fun bitmap =>
    (x, { r with bitmap := bitmap })

def areaPages (i : IdHeap) (base length : Nat) : Range :=
  i.rshift (irangel (base - base % i.pageSize) (pad length i.pageSize))

def setArea (i : IdHeap) (base length : Nat) (validate allocate : Bool) : IdHeap × Bool :=
  let q := i.areaPages base length
  let ((_, ranges), ok) := lookup q (setIntersection q validate allocate) () q.start i.ranges
  let matched : Bool := ok && q.span ≠ 0
  let allocated := if validate && matched then
      if allocate then i.allocated + pad length i.pageSize else i.allocated - pad length i.pageSize
    else i.allocated
  ({ i with ranges := ranges, allocated := allocated }, matched)

end IdHeap

end Jerboa.Heap
