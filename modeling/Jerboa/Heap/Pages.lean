import Jerboa.Heap.Id
import Jerboa.Heap.Search

/-!
# The pages of the ranges

What each operation on the ranges of an id heap does to the marks of their pages.
-/

namespace Jerboa.Heap

open List Lib

theorem toInt_eq_self {x : Nat} (h : x < 2 ^ 31) : toInt x = x := by
  have hmsb : (BitVec.ofNat 32 x).msb = false := by
    rw [BitVec.msb_eq_decide, BitVec.toNat_ofNat, decide_eq_false_iff_not]
    omega
  rw [toInt, BitVec.toNat_signExtend, hmsb, BitVec.toNat_setWidth, BitVec.toNat_ofNat]
  simp only [Bool.false_eq_true, if_false]
  omega

theorem dvd_pad (x s : Nat) : s ∣ pad x s := Nat.dvd_mul_left _ _

theorem le_pad {x s : Nat} (hs : 0 < s) : x ≤ pad x s := by
  have hdiv := Nat.div_add_mod (x + s - 1) s
  have hmod := Nat.mod_lt (x + s - 1) hs
  rw [pad, Nat.mul_comm]
  omega

def Apart (r q : Range) : Prop := min r.stop q.stop ≤ max r.start q.start
deriving Decidable

variable {r q : Range}

theorem apart_iff : Apart r q ↔ ∀ p ∈ r, p ∉ q := by
  unfold Apart
  constructor
  · intro h p hr hq
    rw [Range.mem_def] at hr hq
    omega
  · intro h
    by_contra hlt
    refine h (max r.start q.start) ?_ ?_ <;> rw [Range.mem_def] <;> omega

theorem Apart.symm (h : Apart r q) : Apart q r := by
  unfold Apart at h ⊢
  omega

theorem Apart.of_le (h : r.stop ≤ q.start) : Apart r q :=
  (Nat.min_le_left _ _).trans (h.trans (Nat.le_max_right _ _))

theorem Apart.of_ge (h : q.stop ≤ r.start) : Apart r q := (Apart.of_le h).symm

theorem span_intersection (r q : Range) : (intersection r q).span = 0 ↔ Apart r q := by
  unfold intersection Apart Range.span
  dsimp only
  split_ifs with h
  · exact ⟨fun _ => h, fun _ => rfl⟩
  · dsimp only
    omega

theorem intersection_of_not_apart (h : ¬ Apart r q) :
    intersection r q = ⟨max r.start q.start, min r.stop q.stop⟩ := if_neg h

theorem mem_intersection (h : ¬ Apart r q) (p : Nat) : p ∈ intersection r q ↔ p ∈ r ∧ p ∈ q := by
  rw [intersection_of_not_apart h, Range.mem_def, Range.mem_def, Range.mem_def]
  dsimp only
  omega

namespace IdRange

def marked (r : IdRange) (p : Nat) : Bool := getBit r.bitmap.map (p - r.bitmapStart)

/-- A range as `id_add_range` makes it, small enough for its bits to be numbered with an
`int`.  What `next_bit` remembers is aligned. -/
structure Ok (r : IdRange) : Prop where
  start_le : r.bitmapStart ≤ r.r.start
  lt : r.r.start < r.r.stop
  dvd : 64 ∣ r.bitmapStart
  maxbits : r.bitmap.maxbits = r.r.stop - r.bitmapStart
  fits : r.r.stop - r.bitmapStart < 2 ^ 31
  next : ∀ k < nextBitCount, r.nextBit k = 0 ∨ 2 ^ k ∣ r.bitmapStart + r.nextBit k

structure Changed (r r' : IdRange) (q : Range) (val : Bool) : Prop where
  ok : r'.Ok
  range : r'.r = r.r
  marked : ∀ p ∈ r.r, r'.marked p = if p ∈ q then val else r.marked p

variable {r : IdRange}

theorem Ok.setNextBit (h : r.Ok) {order bit : Nat} (hbit : 2 ^ order ∣ r.bitmapStart + bit) :
    (r.setNextBit order bit).Ok := by
  unfold IdRange.setNextBit
  split_ifs with horder
  · refine { h with next := fun k hk => ?_ }
    dsimp only
    rcases eq_or_ne k order with rfl | hne
    · rw [Function.update_self]
      exact .inr hbit
    · rw [Function.update_of_ne hne]
      exact h.next k hk
  · exact h

@[simp] theorem r_setNextBit (r : IdRange) (order bit : Nat) :
    (r.setNextBit order bit).r = r.r := by
  unfold setNextBit
  split_ifs <;> rfl

@[simp] theorem marked_setNextBit (r : IdRange) (order bit p : Nat) :
    (r.setNextBit order bit).marked p = r.marked p := by
  unfold setNextBit
  split_ifs <;> rfl

theorem Ok.changed (h : r.Ok) {map : Words} {q : Range} {val : Bool} (hq : r.bitmapStart ≤ q.start)
    (hmap : SetRange r.bitmap.map map (q.start - r.bitmapStart) q.span val) :
    Changed r { r with bitmap := { r.bitmap with map := map } } q val := by
  refine ⟨{ h with }, rfl, fun p hp => ?_⟩
  have hstart := h.start_le
  rw [Range.mem_def] at hp
  refine (hmap (p - r.bitmapStart)).trans (if_congr ?_ rfl rfl)
  rw [Range.mem_def, Range.span]
  omega

end IdRange

/-! ## Allocation from a range -/

namespace IdHeap

/-- The search begins at a multiple of the rounded number of pages: a random offset is such
a multiple, and what `next_bit` remembers for the largest orders is aligned for this one. -/
def Aligned (randomize : Bool) (r : IdRange) (pages : Nat) (subrange : Range) (random : Nat) :
    Prop :=
  let ri := searchRange r pages subrange
  if randomize ∧ 0 < margin ri pages then 2 ^ findOrder pages ∣ random % margin ri pages
  else findOrder pages < nextBitCount ∨ r.getNextBit (findOrder pages) ∉ ri ∨
    2 ^ findOrder pages ∣ r.bitmapStart + r.getNextBit (findOrder pages)
deriving Decidable

theorem dvd_margin (ri : Range) (pages : Nat) : 2 ^ findOrder pages ∣ margin ri pages := by
  unfold margin
  dsimp only
  split_ifs
  · exact Nat.dvd_sub (Nat.dvd_mul_left _ _) (Nat.dvd_refl _)
  · exact Nat.dvd_zero _

variable {r : IdRange} {subrange : Range}

theorem searchRange_start (pages : Nat) (h : r.Ok) (hne : (intersection r.r subrange).span ≠ 0) :
    r.r.start ≤ r.bitmapStart + (searchRange r pages subrange).start ∧
      2 ^ findOrder pages ∣ r.bitmapStart + (searchRange r pages subrange).start := by
  have hle : (intersection r.r subrange).start ≤
      pad (intersection r.r subrange).start (2 ^ findOrder pages) :=
    le_pad (Nat.two_pow_pos _)
  have hdvd := dvd_pad (intersection r.r subrange).start (2 ^ findOrder pages)
  have hge : r.r.start ≤ (intersection r.r subrange).start := by
    rw [ne_eq, span_intersection] at hne
    rw [intersection_of_not_apart hne]
    exact Nat.le_max_left _ _
  have hstart := h.start_le
  have heq : r.bitmapStart + (searchRange r pages subrange).start =
      pad (intersection r.r subrange).start (2 ^ findOrder pages) := by
    rw [searchRange]
    dsimp only
    omega
  rw [heq]
  exact ⟨by omega, hdvd⟩

variable {pages : Nat}

variable {randomize : Bool}

theorem dvd_startBit (h : r.Ok) {random : Nat}
    (haligned : Aligned randomize r pages subrange random)
    (hne : (intersection r.r subrange).span ≠ 0) :
    2 ^ findOrder pages ∣ r.bitmapStart + startBit randomize r pages
      (searchRange r pages subrange) random ∧
      (searchRange r pages subrange).start ≤ startBit randomize r pages
        (searchRange r pages subrange) random := by
  obtain ⟨-, hdvd⟩ := searchRange_start pages h hne
  unfold Aligned at haligned
  dsimp only at haligned
  unfold startBit
  generalize searchRange r pages subrange = ri at hdvd haligned
  have hmargin := dvd_margin ri pages
  dsimp only
  split_ifs at haligned ⊢ with hrandom hnext
  · exact ⟨by rw [← Nat.add_assoc]; exact Nat.dvd_add hdvd haligned, Nat.le_add_right _ _⟩
  · rw [Range.mem_def] at hnext
    refine ⟨?_, by omega⟩
    rcases Nat.le_total (r.getNextBit (findOrder pages)) (ri.start + margin ri pages) with hle | hle
    · rw [Nat.min_eq_left hle]
      rcases haligned with horder | hout | hnext'
      · have hget : r.getNextBit (findOrder pages) = r.nextBit (findOrder pages) := by
          rw [IdRange.getNextBit, Nat.min_eq_left (by omega)]
        rcases h.next _ horder with hzero | hdvd'
        · have hsame : r.getNextBit (findOrder pages) = ri.start := by omega
          rw [hsame]
          exact hdvd
        · rw [hget]
          exact hdvd'
      · exact absurd (Range.mem_def.mpr hnext) hout
      · exact hnext'
    · rw [Nat.min_eq_right hle, ← Nat.add_assoc]
      exact Nat.dvd_add hdvd hmargin
  · exact ⟨hdvd, Nat.le_refl _⟩

theorem changed_of_allocInternal (h : r.Ok) {start stop bit : Nat} {b : Bitmap}
    (hstart : r.r.start ≤ r.bitmapStart + start)
    (hdvd : 2 ^ findOrder pages ∣ r.bitmapStart + start)
    (halloc : r.bitmap.allocInternal pages start stop = some (b, bit)) :
    r.Changed ({ r with bitmap := b }.setNextBit (findOrder pages) (bit + 2 ^ findOrder pages))
        (.ofLength (r.bitmapStart + bit) pages) true ∧
      r.r.start ≤ r.bitmapStart + bit ∧ r.bitmapStart + bit + pages ≤ r.r.stop ∧
      2 ^ findOrder pages ∣ r.bitmapStart + bit ∧
      ∀ p ∈ Range.ofLength (r.bitmapStart + bit) pages, r.marked p = false := by
  obtain ⟨hge, -, hmax, hbit, hclear, hmaxbits, hset⟩ := Bitmap.allocInternal_spec h.dvd hdvd halloc
  obtain ⟨maxbits, map⟩ := b
  cases hmaxbits
  rw [h.maxbits] at hmax
  have hle := h.start_le
  have hlt := h.lt
  have hchanged := h.changed (q := .ofLength (r.bitmapStart + bit) pages) (Nat.le_add_right _ _)
    (by rw [Range.span_ofLength, Range.ofLength, Nat.add_sub_cancel_left]; exact hset)
  refine ⟨⟨hchanged.ok.setNextBit ?_, ?_, fun p hp => ?_⟩, by omega, by omega, hbit, fun p hp => ?_⟩
  · rw [← Nat.add_assoc]
    exact Nat.dvd_add hbit (Nat.dvd_refl _)
  · rw [IdRange.r_setNextBit]
  · rw [IdRange.marked_setNextBit]
    exact hchanged.marked p hp
  · rw [Range.mem_ofLength] at hp
    exact hclear (p - r.bitmapStart) (by omega) (by omega)

theorem allocFromRange_spec (h : r.Ok) {random : Nat}
    (haligned : Aligned randomize r pages subrange random) {r' : IdRange} {page : Nat}
    (halloc : allocFromRange randomize r pages subrange random = some (r', page)) :
    r.Changed r' (.ofLength page pages) true ∧ r.r.start ≤ page ∧ page + pages ≤ r.r.stop ∧
      2 ^ findOrder pages ∣ page ∧ ∀ p ∈ Range.ofLength page pages, r.marked p = false := by
  unfold allocFromRange at halloc
  dsimp only at halloc
  by_cases hempty : (intersection r.r subrange).span = 0
  · rw [if_pos hempty] at halloc
    cases halloc
  · rw [if_neg hempty] at halloc
    obtain ⟨hge, hdvd⟩ := searchRange_start pages h hempty
    obtain ⟨hdvd', hge'⟩ := dvd_startBit h haligned hempty
    generalize searchRange r pages subrange = ri at halloc hge hdvd hdvd' hge'
    generalize startBit randomize r pages ri random = start at halloc hdvd' hge'
    by_cases hshort : ri.stop < ri.start ∨ ri.span < pages
    · rw [if_pos hshort] at halloc
      cases halloc
    · rw [if_neg hshort] at halloc
      obtain ⟨⟨b, bit⟩, hfound, heq⟩ := Option.map_eq_some_iff.mp halloc
      cases heq
      rcases Option.or_eq_some_iff.mp hfound with hfirst | ⟨-, hsecond⟩
      · exact changed_of_allocInternal h (by omega) hdvd' hfirst
      · split_ifs at hsecond
        exact changed_of_allocInternal h hge hdvd hsecond

/-! ## All ranges -/

def mark : List IdRange → Nat → Bool
  | [], _ => false
  | r :: rs, p => if p ∈ r.r then r.marked p else mark rs p

/-- The page is in a range. -/
def Has (rs : List IdRange) (p : Nat) : Prop := ∃ r ∈ rs, p ∈ r.r

structure Good (rs : List IdRange) : Prop where
  ok : ∀ r ∈ rs, r.Ok
  ordered : (rs.map IdRange.r).Pairwise fun a b => a.stop ≤ b.start

variable {rs : List IdRange}

theorem Has.cons {p : Nat} (h : Has rs p) : Has (r :: rs) p :=
  h.imp fun _ hr => ⟨mem_cons_of_mem r hr.1, hr.2⟩

theorem Good.tail (h : Good (r :: rs)) : Good rs :=
  ⟨fun r' hr' => h.ok r' (mem_cons_of_mem r hr'), (pairwise_cons.mp h.ordered).2⟩

theorem Good.stop_le (h : Good (r :: rs)) {r' : IdRange} (hr' : r' ∈ rs) : r.r.stop ≤ r'.r.start :=
  (pairwise_cons.mp h.ordered).1 _ (mem_map_of_mem hr')

theorem Good.of_map {rs' : List IdRange} (h : Good rs) (hok : ∀ r ∈ rs', r.Ok)
    (hmap : rs'.map IdRange.r = rs.map IdRange.r) : Good rs' :=
  ⟨hok, hmap ▸ h.ordered⟩

theorem Good.mark_eq (h : Good rs) (hr : r ∈ rs) {p : Nat} (hp : p ∈ r.r) :
    mark rs p = r.marked p := by
  induction rs with
  | nil => exact absurd hr not_mem_nil
  | cons r' rs ih =>
    rw [mark]
    rcases mem_cons.mp hr with rfl | hmem
    · rw [if_pos hp]
    · have hle := h.stop_le hmem
      rw [Range.mem_def] at hp
      rw [if_neg (by rw [Range.mem_def]; omega), ih h.tail hmem]

theorem allocFromRanges_spec (h : Good rs) {random : Nat → Nat}
    (haligned : ∀ r ∈ rs, Aligned randomize r pages subrange (random r.r.start))
    {rs' : List IdRange} {page : Nat}
    (halloc : allocFromRanges randomize pages subrange random rs = some (rs', page)) :
    (∀ r ∈ rs', r.Ok) ∧ rs'.map IdRange.r = rs.map IdRange.r ∧
      (∃ r ∈ rs, r.r.start ≤ page ∧ page + pages ≤ r.r.stop) ∧ 2 ^ findOrder pages ∣ page ∧
      ∀ p, (p ∈ Range.ofLength page pages → mark rs p = false) ∧
        mark rs' p = if p ∈ Range.ofLength page pages then true else mark rs p := by
  induction rs generalizing rs' with
  | nil => cases halloc
  | cons r rs ih =>
    rw [allocFromRanges] at halloc
    have hok := h.ok r mem_cons_self
    cases hfirst : allocFromRange randomize r pages subrange (random r.r.start) with
    | some x =>
      rw [hfirst] at halloc
      cases halloc
      obtain ⟨hchanged, hge, hle, hdvd, hclear⟩ :=
        allocFromRange_spec hok (haligned r mem_cons_self) hfirst
      refine ⟨forall_mem_cons.mpr ⟨hchanged.ok, h.tail.ok⟩, ?_, ⟨r, mem_cons_self, hge, hle⟩, hdvd,
        fun p => ?_⟩
      · rw [map_cons, map_cons, hchanged.range]
      · have hsub : p ∈ Range.ofLength x.2 pages → p ∈ r.r := by
          rw [Range.mem_ofLength, Range.mem_def]
          omega
        rw [mark, mark, hchanged.range]
        by_cases hp : p ∈ r.r
        · rw [if_pos hp, if_pos hp]
          exact ⟨hclear p, hchanged.marked p hp⟩
        · rw [if_neg hp, if_neg hp, if_neg (mt hsub hp)]
          exact ⟨fun hq => absurd (hsub hq) hp, rfl⟩
    | none =>
      rw [hfirst] at halloc
      obtain ⟨⟨rs'', page'⟩, hrest, heq⟩ := Option.map_eq_some_iff.mp halloc
      cases heq
      obtain ⟨hoks, hmap, ⟨r₁, hr₁, hge, hle⟩, hdvd, hmarks⟩ :=
        ih h.tail (fun r' hr' => haligned r' (mem_cons_of_mem r hr')) hrest
      refine ⟨forall_mem_cons.mpr ⟨hok, hoks⟩, by rw [map_cons, map_cons, hmap],
        ⟨r₁, mem_cons_of_mem r hr₁, hge, hle⟩, hdvd, fun p => ?_⟩
      have hstop := h.stop_le hr₁
      have hout : p ∈ Range.ofLength page' pages → p ∉ r.r := by
        rw [Range.mem_ofLength, Range.mem_def]
        omega
      rw [mark, mark]
      by_cases hp : p ∈ r.r
      · rw [if_pos hp, if_pos hp, if_neg fun hq => hout hq hp]
        exact ⟨fun hq => absurd hp (hout hq), rfl⟩
      · rw [if_neg hp, if_neg hp]
        exact hmarks p

end IdHeap

end Jerboa.Heap
