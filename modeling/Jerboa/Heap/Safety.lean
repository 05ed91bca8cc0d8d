import Jerboa.Heap.Ledger
import Mathlib.Algebra.Order.BigOperators.Group.List

/-!
# Safety of the id heap

Every page that is live is marked in the bitmap of its range.  So an allocation, which
finds pages that are not marked, meets nothing that is live.
-/

namespace Jerboa.Heap

open List Lib Lib.Run

variable {rs rs' : List IdRange} {base length : Nat} {S : Nat → Prop}

namespace IdHeap

theorem findOrder_eq_clog (n : Nat) : findOrder n = Nat.clog 2 n :=
  Nat.le_antisymm (findOrder_le_iff.mpr (Nat.le_pow_clog (by decide) n))
    ((Nat.clog_le_iff_le_pow (by decide)).mpr (le_two_pow_findOrder n))

theorem ok_newRange {start pages : Nat} (hpos : 0 < pages) (hfits : pages + start % 64 < 2 ^ 31)
    (hend : start + pages < 2 ^ 64) : (newRange start pages).Ok := by
  have hmod := Nat.mod_le start 64
  have hr : (newRange start pages).r = .ofLength start pages := irangel_eq_ofLength hend
  have hstop : (newRange start pages).r.stop - (newRange start pages).bitmapStart =
      pages + start % 64 := by
    rw [hr]
    change start + pages - (start - start % 64) = _
    omega
  refine ⟨Nat.sub_le _ _, ?_, Nat.dvd_sub_mod start, hstop.symm, ?_, fun _ _ => .inl rfl⟩
  · rw [hr]
    exact Nat.lt_add_of_pos_right hpos
  · rw [hstop]
    exact hfits

/-- The pages of a range end where its bytes do. -/
theorem stop_newRange {base length pageSize : Nat} (hsize : 0 < pageSize)
    (hend : base + length < 2 ^ 64) :
    base / pageSize + length / pageSize < 2 ^ 64 ∧
      (newRange (base / pageSize) (length / pageSize)).r.stop * pageSize < 2 ^ 64 := by
  have hbase := Nat.div_mul_le_self base pageSize
  have hlength := Nat.div_mul_le_self length pageSize
  have hbytes : (base / pageSize + length / pageSize) * pageSize < 2 ^ 64 := by
    rw [Nat.add_mul]
    omega
  have hpages : base / pageSize + length / pageSize < 2 ^ 64 :=
    Nat.lt_of_le_of_lt (Nat.le_mul_of_pos_right _ hsize) hbytes
  refine ⟨hpages, ?_⟩
  rwa [newRange, irangel_eq_ofLength hpages]

/-- The ends of the ranges, in bytes, are `u64`s. -/
def Bounded (pageSize : Nat) (rs : List IdRange) : Prop :=
  ∀ r ∈ rs, r.r.stop * pageSize < 2 ^ 64

theorem Bounded.of_map {pageSize : Nat} (h : Bounded pageSize rs)
    (hmap : rs'.map IdRange.r = rs.map IdRange.r) : Bounded pageSize rs' := by
  intro r' hr'
  have hmem : r'.r ∈ rs.map IdRange.r := hmap ▸ mem_map_of_mem hr'
  obtain ⟨r, hr, heq⟩ := mem_map.mp hmem
  exact heq ▸ h r hr

variable {r : IdRange}

theorem checkRange_eq_some {i : IdHeap} (h : i.checkRange base length = some r) :
    r = newRange (base / i.pageSize) (i.rangeLength base length / i.pageSize) ∧
      0 < i.rangeLength base length / i.pageSize ∧ ∀ r' ∈ i.ranges, Apart r'.r r.r := by
  unfold checkRange at h
  dsimp only at h
  split_ifs at h with hassert hmeets
  cases h
  rw [not_or] at hassert
  refine ⟨rfl, Nat.div_pos (Nat.le_of_not_lt hassert.1) (Nat.two_pow_pos _), fun r' hr' => ?_⟩
  rw [any_eq_true, not_exists] at hmeets
  have hspan := hmeets r'
  rw [not_and, decide_eq_true_eq, not_not, span_intersection] at hspan
  exact hspan hr'

theorem mem_insertRange {r r' : IdRange} {rs : List IdRange} :
    r' ∈ insertRange r rs ↔ r' = r ∨ r' ∈ rs := by
  induction rs with
  | nil => rw [insertRange, mem_singleton, or_iff_left not_mem_nil]
  | cons r₁ rs ih =>
    rw [insertRange]
    split_ifs
    · rw [mem_cons]
    · rw [mem_cons, mem_cons, ih]
      exact or_left_comm

theorem Bounded.insertRange {pageSize : Nat} (h : Bounded pageSize rs)
    (hr : r.r.stop * pageSize < 2 ^ 64) : Bounded pageSize (insertRange r rs) := by
  intro r' hr'
  rcases mem_insertRange.mp hr' with rfl | hr'
  · exact hr
  · exact h r' hr'

theorem Good.insertRange {rs : List IdRange} (h : Good rs) (hr : r.Ok)
    (hapart : ∀ r' ∈ rs, Apart r'.r r.r) : Good (insertRange r rs) := by
  refine ⟨fun r' hr' => ?_, ?_⟩
  · rcases mem_insertRange.mp hr' with rfl | hr'
    · exact hr
    · exact h.ok r' hr'
  · have hlt := hr.lt
    induction rs with
    | nil => exact pairwise_singleton _ _
    | cons r₁ rs ih =>
      have hlt₁ := (h.ok r₁ mem_cons_self).lt
      have hapart₁ := hapart r₁ mem_cons_self
      unfold Apart at hapart₁
      rw [IdHeap.insertRange]
      split_ifs with hle
      · rw [map_cons, pairwise_cons]
        refine ⟨fun q hq => ?_, h.ordered⟩
        rw [map_cons] at hq
        rcases mem_cons.mp hq with rfl | hq
        · omega
        · have hstop := (pairwise_cons.mp h.ordered).1 q hq
          omega
      · rw [map_cons, pairwise_cons]
        refine ⟨fun q hq => ?_, ih h.tail fun r' hr' => hapart r' (mem_cons_of_mem r₁ hr')⟩
        obtain ⟨r', hr', rfl⟩ := mem_map.mp hq
        rcases mem_insertRange.mp hr' with rfl | hr'
        · omega
        · exact h.stop_le hr'

structure Keeps (rs rs' : List IdRange) (S : Nat → Prop) : Prop where
  good : Good rs'
  ranges : ∀ r ∈ rs, ∃ r' ∈ rs', r'.r = r.r
  marks : ∀ p, S p → Has rs p → mark rs p = true → mark rs' p = true

theorem Keeps.insertRange {rs : List IdRange} (h : Good rs) (hr : r.Ok)
    (hapart : ∀ r' ∈ rs, Apart r'.r r.r) (S : Nat → Prop) : Keeps rs (insertRange r rs) S := by
  have hgood := h.insertRange hr hapart
  have hmem : ∀ r' ∈ rs, r' ∈ IdHeap.insertRange r rs :=
    fun r' hr' => mem_insertRange.mpr (.inr hr')
  refine ⟨hgood, fun r' hr' => ⟨r', hmem r' hr', rfl⟩, fun p _ hhas hmark => ?_⟩
  obtain ⟨r', hr', hp⟩ := hhas
  rwa [hgood.mark_eq (hmem r' hr') hp, ← h.mark_eq hr' hp]

theorem keeps_of_map (h : Good rs) (hok : ∀ r ∈ rs', r.Ok)
    (hmap : rs'.map IdRange.r = rs.map IdRange.r)
    (hmarks : ∀ p, S p → mark rs p = true → mark rs' p = true) : Keeps rs rs' S := by
  refine ⟨h.of_map hok hmap, fun r hr => ?_, fun p hp _ => hmarks p hp⟩
  have hmem : r.r ∈ rs'.map IdRange.r := hmap ▸ mem_map_of_mem hr
  exact mem_map.mp hmem

theorem Keeps.imp {S T : Nat → Prop} (h : Keeps rs rs' S) (hST : ∀ p, T p → S p) : Keeps rs rs' T :=
  { h with marks := fun p hp => h.marks p (hST p hp) }

theorem Keeps.has (h : Keeps rs rs' S) {p : Nat} (hp : Has rs p) : Has rs' p := by
  obtain ⟨r, hr, hmem⟩ := hp
  obtain ⟨r', hr', hsame⟩ := h.ranges r hr
  exact ⟨r', hr', hsame ▸ hmem⟩

end IdHeap

/-! ## The invariant -/

open IdHeap

structure LiveOk (rs : List IdRange) (pageSize : Nat) (a : Alloc) : Prop where
  pos : 0 < a.pages pageSize
  addr : pageSize ∣ a.addr
  aligned : 2 ^ findOrder (a.pages pageSize) ∣ a.addr / pageSize
  inside : ∃ r ∈ rs, r.r.start ≤ a.addr / pageSize ∧ a.addr / pageSize + a.pages pageSize ≤ r.r.stop
  marked : ∀ p ∈ a.range pageSize, mark rs p = true

def AreaOk (rs : List IdRange) (x : Area) : Prop := ∀ p ∈ x.q, Has rs p ∧ mark rs p = true

structure Inv (s : System) : Prop where
  good : Good s.heap.ranges
  bounded : Bounded s.pageSize s.heap.ranges
  live : ∀ a ∈ s.live, LiveOk s.heap.ranges s.pageSize a
  areas : ∀ x ∈ s.areas, AreaOk s.heap.ranges x
  disjoint : s.live.Pairwise fun a b => Apart (a.range s.pageSize) (b.range s.pageSize)
  apart : ∀ a ∈ s.live, ∀ x ∈ s.areas, Apart (a.range s.pageSize) x.q
  allocated : s.heap.allocated = s.liveBytes

variable {a : Alloc}

theorem LiveOk.has {rs : List IdRange} {pageSize : Nat} (h : LiveOk rs pageSize a) {p : Nat}
    (hp : p ∈ a.range pageSize) : Has rs p := by
  obtain ⟨r, hr, hstart, hstop⟩ := h.inside
  rw [Alloc.range, Range.mem_ofLength] at hp
  refine ⟨r, hr, ?_⟩
  rw [Range.mem_def]
  omega

theorem LiveOk.keeps {pageSize : Nat} (h : LiveOk rs pageSize a) (hrs : Keeps rs rs' S)
    (hS : ∀ p ∈ a.range pageSize, S p) : LiveOk rs' pageSize a := by
  refine { h with
    inside := ?_
    marked := fun p hp => hrs.marks p (hS p hp) (h.has hp) (h.marked p hp) }
  obtain ⟨r, hr, hinside⟩ := h.inside
  obtain ⟨r', hr', hsame⟩ := hrs.ranges r hr
  exact ⟨r', hr', hsame ▸ hinside⟩

theorem AreaOk.keeps {x : Area} (h : AreaOk rs x) (hrs : Keeps rs rs' S) (hS : ∀ p ∈ x.q, S p) :
    AreaOk rs' x :=
  fun p hp => ⟨hrs.has (h p hp).1, hrs.marks p (hS p hp) (h p hp).1 (h p hp).2⟩

theorem inv_init (pageOrder : Nat) (parent : Option Nat) : Inv (init pageOrder parent) where
  good := ⟨nofun, List.Pairwise.nil⟩
  bounded := nofun
  live := nofun
  areas := nofun
  disjoint := List.Pairwise.nil
  apart := nofun
  allocated := rfl

namespace Inv

variable {s : System}

theorem pageSize_pos (s : System) : 0 < s.pageSize := Nat.two_pow_pos _

theorem keeps (h : Inv s) {rs : List IdRange} (hrs : Keeps s.heap.ranges rs fun _ => True)
    (hbounded : Bounded s.pageSize rs) : Inv { s with heap := { s.heap with ranges := rs } } :=
  { h with
    good := hrs.good
    bounded := hbounded
    live := fun a ha => (h.live a ha).keeps hrs fun _ _ => trivial
    areas := fun x hx => (h.areas x hx).keeps hrs fun _ _ => trivial }

theorem setRandomize (h : Inv s) (randomize : Bool) :
    Inv { s with heap := { s.heap with randomize := randomize } } :=
  { h with }

theorem addRange (h : Inv s) (hfits : System.FitsRange s.heap base length) :
    Inv { s with heap := (s.heap.addRange base length).getD s.heap } := by
  unfold IdHeap.addRange
  cases hr : s.heap.checkRange base length with
  | none => exact h
  | some =>
    obtain ⟨rfl, hpos, hapart⟩ := checkRange_eq_some hr
    obtain ⟨hend, hstop⟩ := stop_newRange (pageSize_pos s) hfits.2
    exact h.keeps (.insertRange h.good (ok_newRange hpos hfits.1 hend) hapart _)
      (h.bounded.insertRange hstop)

theorem grant (h : Inv s) {count page : Nat} {rs : List IdRange} (hpos : 0 < s.pagesFor count)
    (hrs : Keeps s.heap.ranges rs fun _ => True) (hbounded : Bounded s.pageSize rs)
    (hclear : ∀ p ∈ Range.ofLength page (s.pagesFor count), Has s.heap.ranges p →
      mark s.heap.ranges p = false)
    (hmarked : ∀ p ∈ Range.ofLength page (s.pagesFor count), mark rs p = true)
    (hinside : ∃ r ∈ rs, r.r.start ≤ page ∧ page + s.pagesFor count ≤ r.r.stop)
    (hdvd : 2 ^ findOrder (s.pagesFor count) ∣ page) :
    Inv (s.granted count (s.heap.grant (s.pagesFor count) (rs, page))) := by
  have hkept := h.keeps hrs hbounded
  have hpage : page * s.pageSize / s.pageSize = page := Nat.mul_div_cancel _ (pageSize_pos s)
  have hrange : Alloc.range ⟨page * s.pageSize, count⟩ s.pageSize =
      .ofLength page (s.pagesFor count) := by
    rw [Alloc.range, hpage]
    rfl
  -- what is live is marked, and the new pages are not
  have hnew : ∀ q : Range, (∀ p ∈ q, Has s.heap.ranges p ∧ mark s.heap.ranges p = true) →
      Apart (Alloc.range ⟨page * s.pageSize, count⟩ s.pageSize) q := by
    intro q hq
    rw [hrange, apart_iff]
    intro p hp hmem
    obtain ⟨hhas, hmark⟩ := hq p hmem
    rw [hclear p hp hhas] at hmark
    cases hmark
  have hlive : LiveOk rs s.pageSize ⟨page * s.pageSize, count⟩ := by
    refine ⟨hpos, Nat.dvd_mul_left _ _, ?_, ?_, ?_⟩
    · rw [hpage]
      exact hdvd
    · rw [hpage]
      exact hinside
    · rw [hrange]
      exact hmarked
  refine ⟨hrs.good, hbounded, forall_mem_cons.mpr ⟨hlive, hkept.live⟩, hkept.areas,
    pairwise_cons.mpr ⟨fun b hb => ?_, h.disjoint⟩,
      forall_mem_cons.mpr ⟨fun x hx => hnew x.q (h.areas x hx), h.apart⟩, ?_⟩
  · exact hnew _ fun p hp => ⟨(h.live b hb).has hp, (h.live b hb).marked p hp⟩
  · change s.heap.allocated + s.pagesFor count * s.heap.pageSize = _
    rw [h.allocated]
    change _ = (List.map _ (_ :: s.live)).sum + _
    rw [map_cons, sum_cons]
    exact (Nat.add_comm _ _).trans (Nat.add_assoc _ _ _).symm

/-! ### Allocations -/

variable {count : Nat}

theorem pagesFromBytes_eq (hlt : s.pagesFor count < 2 ^ 31) :
    s.heap.pagesFromBytes count = s.pagesFor count := by
  have hpages : pad count s.heap.pageSize / s.heap.pageSize = s.pagesFor count :=
    Nat.mul_div_cancel _ (pageSize_pos s)
  rw [pagesFromBytes, hpages, toInt_eq_self hlt]

theorem pages_pos (hcount : count ≠ 0) : 0 < s.pagesFor count := by
  have hsize := pageSize_pos s
  refine Nat.div_pos ?_ hsize
  dsimp only
  omega

variable {random : Nat → Nat}

section

variable (h : Inv s)
include h

theorem grant_of_ranges {subrange : Range} (hcount : count ≠ 0)
    (hfits : s.FitsAlloc count subrange random) {x : List IdRange × Nat}
    (halloc : allocFromRanges s.heap.randomize (s.pagesFor count) subrange random s.heap.ranges =
      some x) :
    Inv (s.granted count (s.heap.grant (s.pagesFor count) x)) := by
  obtain ⟨rs, page⟩ := x
  obtain ⟨hoks, hmap, ⟨r, hr, hinside⟩, hdvd, hmarks⟩ :=
    allocFromRanges_spec h.good hfits.2.2 halloc
  have hrs : Keeps s.heap.ranges rs fun _ => True := by
    refine keeps_of_map h.good hoks hmap fun p _ hmark => ?_
    rw [(hmarks p).2, hmark, ite_self]
  obtain ⟨r', hr', hsame⟩ := hrs.ranges r hr
  refine h.grant (pages_pos hcount) hrs (h.bounded.of_map hmap) (fun p hp _ => (hmarks p).1 hp)
    (fun p hp => ?_) ⟨r', hr', hsame ▸ hinside⟩ hdvd
  rw [(hmarks p).2, if_pos hp]

theorem grant_of_new {count random : Nat} {r r' : IdRange} {page : Nat} (hcount : count ≠ 0)
    (hok : r.Ok) (hstop : r.r.stop * s.pageSize < 2 ^ 64)
    (hapart : ∀ r₁ ∈ s.heap.ranges, Apart r₁.r r.r)
    (haligned : Aligned s.heap.randomize r (s.pagesFor count) wholeRange random)
    (halloc : allocFromRange s.heap.randomize r (s.pagesFor count) wholeRange random =
      some (r', page)) :
    Inv (s.granted count
      (s.heap.grant (s.pagesFor count) (insertRange r' s.heap.ranges, page))) := by
  obtain ⟨hchanged, hge, hle, hdvd, -⟩ := allocFromRange_spec hok haligned halloc
  rw [← hchanged.range] at hapart hge hle hstop
  have hrs := Keeps.insertRange h.good hchanged.ok hapart fun _ => True
  have hr' : r' ∈ insertRange r' s.heap.ranges := mem_insertRange.mpr (.inl rfl)
  have hmem : ∀ p ∈ Range.ofLength page (s.pagesFor count), p ∈ r'.r := by
    intro p hp
    rw [Range.mem_ofLength] at hp
    rw [Range.mem_def]
    omega
  refine h.grant (pages_pos hcount) hrs (h.bounded.insertRange hstop) (fun p hp hhas => ?_)
    (fun p hp => ?_) ⟨r', hr', hge, hle⟩ hdvd
  -- the pages were in no range
  · obtain ⟨r₁, hr₁, hp₁⟩ := hhas
    exact absurd (hmem p hp) (apart_iff.mp (hapart r₁ hr₁) p hp₁)
  · rw [hrs.good.mark_eq hr' (hmem p hp), hchanged.marked p (hchanged.range ▸ hmem p hp), if_pos hp]

theorem granted_backed {base : Option Nat} (hcount : count ≠ 0)
    (hbacked : s.FitsBacked count random base) :
    Inv (s.granted count (s.heap.allocBacked count (s.pagesFor count) random base)) := by
  unfold allocBacked
  cases hparent : s.heap.parent with
  | none => exact h
  | some parentSize =>
    cases base with
    | none => exact h
    | some b =>
      obtain ⟨hfits, haligned⟩ := hbacked parentSize hparent b rfl
      dsimp only
      cases hr : s.heap.checkRange b (((count - 1) / parentSize + 1) * parentSize) with
      | none => exact h
      | some r =>
        obtain ⟨hnew, hpos, hapart⟩ := checkRange_eq_some hr
        obtain ⟨hend, hbytes⟩ := stop_newRange (pageSize_pos s) hfits.2
        have hok : r.Ok := hnew ▸ ok_newRange hpos hfits.1 hend
        have hstop : r.r.stop * s.pageSize < 2 ^ 64 := by
          rw [hnew]
          exact hbytes
        have hstart : r.r.start = b / s.pageSize := by
          rw [hnew]
          rfl
        dsimp only
        cases halloc : allocFromRange s.heap.randomize r (s.pagesFor count) wholeRange
            (random r.r.start) with
        | none =>
          rw [← hparent]
          exact h.keeps (.insertRange h.good hok hapart _) (h.bounded.insertRange hstop)
        | some x =>
          refine h.grant_of_new hcount hok hstop hapart ?_ halloc
          rw [hstart, hnew]
          exact haligned

theorem alloc {base : Option Nat} (hfits : s.FitsAlloc count wholeRange random)
    (hbacked : s.FitsBacked count random base) :
    Inv (s.granted count (s.heap.alloc count random base)) := by
  unfold IdHeap.alloc
  by_cases hcount : count = 0
  · rw [if_pos hcount]
    exact h
  · rw [if_neg hcount, pagesFromBytes_eq hfits.1]
    dsimp only
    cases halloc : allocFromRanges s.heap.randomize (s.pagesFor count) wholeRange random
        s.heap.ranges with
    | none => exact h.granted_backed hcount hbacked
    | some x => exact h.grant_of_ranges hcount hfits halloc

theorem allocSubrange {count start stop : Nat}
    (hfits : s.FitsAlloc count (s.heap.subrangePages start stop) random) :
    Inv (s.granted count (s.heap.allocSubrange count start stop random)) := by
  unfold IdHeap.allocSubrange
  dsimp only
  split_ifs with hempty hshort
  · exact h
  · exact h
  · rw [not_or] at hempty
    rw [pagesFromBytes_eq hfits.1]
    cases halloc : allocFromRanges s.heap.randomize (s.pagesFor count)
        (s.heap.subrangePages start stop) random s.heap.ranges with
    | none => exact h
    | some x => exact h.grant_of_ranges hempty.1 hfits halloc

theorem perm_erase (ha : a ∈ s.live) :
    (∀ b ∈ s.live.erase a, Apart (b.range s.pageSize) (a.range s.pageSize)) ∧
      (s.live.erase a).Pairwise fun b c => Apart (b.range s.pageSize) (c.range s.pageSize) := by
  have hperm := perm_cons_erase ha
  have hpairwise := (hperm.pairwise_iff fun hapart => Apart.symm hapart).mp h.disjoint
  rw [pairwise_cons] at hpairwise
  exact ⟨fun b hb => (hpairwise.1 b hb).symm, hpairwise.2⟩

end

theorem keeps_of_passed {q : Range} {val : Bool} (h : Good rs) (hp : Passed q val rs rs') :
    Keeps rs rs' fun p => val = true ∨ p ∉ q := by
  refine keeps_of_map h hp.ok hp.map fun p hS hmark => ?_
  rcases hS with rfl | hout
  · exact hp.kept p hmark
  · rw [hp.out p hout, hmark]

theorem liveBytes_erase (s : System) (ha : a ∈ s.live) :
    s.liveBytes = a.pages s.pageSize * s.pageSize +
      { s with live := s.live.erase a }.liveBytes := by
  have hsum := sum_map_erase (fun b : Alloc => b.pages s.pageSize * s.pageSize) ha
  unfold System.liveBytes
  rw [← hsum]
  exact Nat.add_assoc _ _ _

theorem dealloc_eq (h : Inv s) (ha : a ∈ s.live) :
    ∃ rs, Passed (a.range s.pageSize) false s.heap.ranges rs ∧
      s.heap.dealloc a.addr (a.pages s.pageSize * s.pageSize) =
        { s.heap with
          ranges := rs
          allocated := s.heap.allocated - a.pages s.pageSize * s.pageSize } := by
  have hsize := pageSize_pos s
  have hlive := h.live a ha
  have hpos := hlive.pos
  have hmod : ¬ (a.pages s.pageSize * s.pageSize = 0 ∨ a.addr % s.heap.pageSize ≠ 0 ∨
      a.pages s.pageSize * s.pageSize % s.heap.pageSize ≠ 0) := by
    rw [not_or, not_or, not_not, not_not]
    exact ⟨(Nat.mul_pos hpos hsize).ne', Nat.mod_eq_zero_of_dvd hlive.addr, Nat.mul_mod_left _ _⟩
  obtain ⟨r, hr, hge, hle⟩ := hlive.inside
  have hend : a.addr + a.pages s.pageSize * s.pageSize < 2 ^ 64 :=
    calc a.addr + a.pages s.pageSize * s.pageSize
        = (a.addr / s.pageSize + a.pages s.pageSize) * s.pageSize := by
          rw [Nat.add_mul, Nat.div_mul_cancel hlive.addr]
      _ ≤ r.r.stop * s.pageSize := Nat.mul_le_mul_right _ hle
      _ < 2 ^ 64 := h.bounded r hr
  have hq : s.heap.rshift (irangel a.addr (a.pages s.pageSize * s.pageSize)) =
      a.range s.pageSize := by
    rw [irangel_eq_ofLength hend, rshift, Alloc.range, Range.ofLength, Range.ofLength]
    congr 1
    exact Nat.add_mul_div_right _ _ hsize
  have hok := h.good.ok r hr
  have hmeets : ¬ Apart r.r (a.range s.pageSize) := by
    have hlt := hok.lt
    rw [Alloc.range, Range.ofLength, Apart]
    dsimp only
    omega
  have hspan : (intersection (a.range s.pageSize) r.r).span = a.pages s.pageSize := by
    rw [intersection_of_not_apart fun hapart => hmeets hapart.symm, Alloc.range, Range.ofLength,
      Range.span]
    dsimp only
    omega
  have hcount : (intersection (a.range s.pageSize) r.r).span * s.heap.pageSize ≤
      s.heap.allocated := by
    rw [hspan, h.allocated, liveBytes_erase s ha]
    exact Nat.le_add_right _ _
  obtain ⟨r', hr'⟩ := deallocFromRange_eq_some hok hmeets
    (fun p hp hq => (h.good.mark_eq hr hp).symm.trans (hlive.marked p hq)) hcount
  obtain ⟨hleft, -⟩ := lookup_single (q := a.range s.pageSize) h.good hr hge hle
    (Nat.lt_add_of_pos_right hpos) hr'
    (deallocFromRange_changed hok hmeets hr').range (a.range s.pageSize).start
  obtain ⟨hpassed, -⟩ := lookup_spec (P := fun _ => True)
    (fun r hr _ _ _ hmeets hr' => ⟨deallocFromRange_changed (h.good.ok r hr) hmeets hr', trivial⟩)
      h.good.ok
    s.heap.allocated (a.range s.pageSize).start
  refine ⟨_, hpassed, ?_⟩
  unfold IdHeap.dealloc
  rw [if_neg hmod]
  dsimp only
  rw [hq]
  rw [hspan] at hleft
  congr 1

theorem dealloc (h : Inv s) (ha : a ∈ s.live) :
    Inv { s with
      heap := s.heap.dealloc a.addr (a.pages s.pageSize * s.pageSize)
      live := s.live.erase a } := by
  obtain ⟨rs, hpassed, heq⟩ := h.dealloc_eq ha
  have hrs := keeps_of_passed h.good hpassed
  obtain ⟨hothers, hdisjoint⟩ := h.perm_erase ha
  rw [heq]
  refine ⟨hrs.good, h.bounded.of_map hpassed.map, fun b hb => ?_, fun x hx => ?_, hdisjoint,
    fun b hb x hx => h.apart b (mem_of_mem_erase hb) x hx, ?_⟩
  · refine (h.live b (mem_of_mem_erase hb)).keeps hrs fun p hp => .inr ?_
    exact apart_iff.mp (hothers b hb) p hp
  · refine (h.areas x hx).keeps hrs fun p hp => .inr ?_
    exact apart_iff.mp (h.apart a ha x hx).symm p hp
  · rw [h.allocated, liveBytes_erase s ha, Nat.add_sub_cancel_left]
    rfl

/-! ### Areas -/

theorem span_areaPages (i : IdHeap)
    (hend : base - base % i.pageSize + pad length i.pageSize < 2 ^ 64) :
    (i.areaPages base length).span * i.pageSize = pad length i.pageSize := by
  obtain ⟨k, hk⟩ := Nat.dvd_sub_mod (n := i.pageSize) base
  have hsize : 0 < i.pageSize := Nat.two_pow_pos _
  unfold areaPages rshift Range.span
  rw [irangel_eq_ofLength hend, Range.ofLength]
  dsimp only
  rw [hk, Nat.mul_add_div hsize, Nat.mul_div_cancel_left k hsize, Nat.add_sub_cancel_left,
    Nat.div_mul_cancel (dvd_pad _ _)]

theorem liveBytes_area (s : System) (x : Area) :
    { s with areas := x :: s.areas }.liveBytes =
      s.liveBytes + if x.validated then x.q.span * s.pageSize else 0 := by
  unfold System.liveBytes
  rw [filter_cons]
  cases hx : x.validated with
  | false => rfl
  | true =>
    rw [if_pos rfl, if_pos rfl, map_cons, sum_cons, Nat.add_comm (x.q.span * _)]
    exact (Nat.add_assoc _ _ _).symm

theorem liveBytes_erase_area (s : System) {x : Area} (hx : x ∈ s.areas) :
    s.liveBytes = { s with areas := s.areas.erase x }.liveBytes + if x.validated then x.q.span *
      s.pageSize else 0 := by
  have hperm := perm_cons_erase hx
  refine Eq.trans ?_ (liveBytes_area { s with areas := s.areas.erase x } x)
  unfold System.liveBytes
  congr 1
  exact ((hperm.filter _).map _).sum_eq

theorem lookup_area (h : Good s.heap.ranges) (q : Range) (validate allocate : Bool) :
    Passed q allocate s.heap.ranges
        (lookup q (setIntersection q validate allocate) () q.start s.heap.ranges).1.2 ∧
      ((lookup q (setIntersection q validate allocate) () q.start s.heap.ranges).2 = true →
        ∀ p ∈ q, Has s.heap.ranges p ∧
          mark (lookup q (setIntersection q validate allocate) () q.start s.heap.ranges).1.2 p =
            allocate ∧
          (validate = true → mark s.heap.ranges p = !allocate)) := by
  obtain ⟨hpassed, hend⟩ := lookup_spec
    (P := fun r => validate = true → ∀ p ∈ r.r, p ∈ q → r.marked p = !allocate)
    (fun r hr _ _ _ hmeets hr' => setIntersection_changed (h.ok r hr) hmeets hr') h.ok () q.start
  refine ⟨hpassed, fun hdone p hp => ?_⟩
  obtain ⟨hhas, hmark⟩ := (hend hdone).1 p hp (Range.mem_def.mp hp).1
  refine ⟨hhas, hmark, fun hvalidate => ?_⟩
  obtain ⟨r, hr, hmem⟩ := hhas
  rw [h.mark_eq hr hmem]
  exact (hend hdone).2 r hr (fun hapart => apart_iff.mp hapart p hmem hp) hvalidate p hmem hp

theorem allocateArea (h : Inv s) {validate : Bool}
    (hend : base - base % s.pageSize + pad length s.pageSize < 2 ^ 64)
    (hfits : validate = true ∨ ∀ a ∈ s.live, Apart (a.range s.pageSize)
      (s.heap.areaPages base length)) :
    Inv (s.step (.setArea base length validate true)) := by
  have hspan := span_areaPages s.heap hend
  unfold System.step IdHeap.setArea
  dsimp only
  generalize s.heap.areaPages base length = q at *
  obtain ⟨hpassed, hend⟩ := lookup_area h.good q validate true
  generalize lookup q (setIntersection q validate true) () q.start s.heap.ranges = x at *
  have hrs := keeps_of_passed h.good hpassed
  have hbounded := h.bounded.of_map hpassed.map
  have hkept := h.keeps (hrs.imp fun _ _ => .inl rfl) hbounded
  cases hmatched : x.2 && decide (q.span ≠ 0) with
  | false =>
    rw [Bool.and_false]
    exact hkept
  | true =>
    have hdone := hend (Bool.and_eq_true_iff.mp hmatched).1
    have hapart : ∀ a ∈ s.live, Apart (a.range s.pageSize) q := by
      rcases hfits with hvalidate | hapart
      · intro a ha
        rw [apart_iff]
        intro p hp hq
        have hmark := (hdone p hq).2.2 hvalidate
        rw [(h.live a ha).marked p hp] at hmark
        cases hmark
      · exact hapart
    refine ⟨hkept.good, hbounded, hkept.live, forall_mem_cons.mpr ⟨fun p hp => ?_, hkept.areas⟩,
      h.disjoint, fun a ha => ?_, ?_⟩
    · obtain ⟨hhas, hmark, -⟩ := hdone p hp
      exact ⟨hrs.has hhas, hmark⟩
    · exact forall_mem_cons.mpr ⟨hapart a ha, h.apart a ha⟩
    · refine Eq.trans ?_ (liveBytes_area s ⟨q, validate⟩).symm
      rw [← h.allocated]
      cases validate with
      | false => rfl
      | true =>
        rw [if_pos rfl, if_pos rfl, ← hspan]
        rfl

theorem deallocateArea (h : Inv s) {validate : Bool}
    (hfits : s.FitsArea base length validate false) :
    Inv (s.step (.setArea base length validate false)) := by
  obtain ⟨hend, hfits⟩ := hfits
  have hspan := span_areaPages s.heap hend
  unfold System.step IdHeap.setArea
  dsimp only
  generalize s.heap.areaPages base length = q at *
  dsimp only at hfits
  rw [if_neg Bool.false_ne_true] at hfits
  obtain ⟨hset, hlive, hareas⟩ := hfits
  obtain ⟨hpassed, -⟩ := lookup_area h.good q validate false
  -- an area that was set has no gap and all its marks
  have hdone : ⟨q, validate⟩ ∈ s.areas →
      (lookup q (setIntersection q validate false) () q.start s.heap.ranges).2 = true := by
    intro hmem
    have harea := h.areas _ hmem
    refine lookup_eq_true h.good (fun r hr x hmeets => ?_) () (.inl (Nat.le_refl _)) fun p hp _ =>
      (harea p hp).1
    refine setIntersection_eq_some (h.good.ok r hr) hmeets (fun _ p hp hq => ?_) x
    rw [← h.good.mark_eq hr hp]
    exact (harea p hq).2
  generalize lookup q (setIntersection q validate false) () q.start s.heap.ranges = x at *
  have hrs := keeps_of_passed h.good hpassed
  have hbounded := h.bounded.of_map hpassed.map
  have hkept : ∀ a ∈ s.live, LiveOk x.1.2 s.pageSize a :=
    fun a ha => (h.live a ha).keeps hrs fun p hp => .inr (apart_iff.mp (hlive a ha) p hp)
  have hleft : ∀ x' ∈ s.areas.erase ⟨q, validate⟩, AreaOk x.1.2 x' :=
    fun x' hx' => (h.areas x' (mem_of_mem_erase hx')).keeps hrs fun p hp =>
      .inr (apart_iff.mp (hareas x' hx') p hp)
  by_cases hmem : ⟨q, validate⟩ ∈ s.areas
  · rw [hdone hmem, Bool.true_and]
    by_cases hempty : q.span = 0
    · rw [decide_eq_false (not_not.mpr hempty), Bool.and_false]
      refine h.keeps (hrs.imp fun p _ => .inr fun hp => ?_) hbounded
      rw [Range.mem_def] at hp
      rw [Range.span] at hempty
      omega
    · rw [decide_eq_true hempty, Bool.and_true]
      refine ⟨hrs.good, hbounded, hkept, hleft, h.disjoint,
        fun a ha x' hx' => h.apart a ha x' (mem_of_mem_erase hx'), ?_⟩
      have hbytes := liveBytes_erase_area s hmem
      rw [h.allocated, hbytes]
      cases validate with
      | false => rfl
      | true =>
        rw [if_pos rfl, if_pos rfl, ← hspan]
        exact Nat.add_sub_cancel _ _
  · have hvalidate : validate = false := Bool.eq_false_iff.mpr fun hvalidate =>
      hmem (hvalidate ▸ hset hvalidate)
    cases hvalidate
    rw [erase_of_not_mem hmem] at hleft ⊢
    rw [Bool.false_and, if_neg Bool.false_ne_true, if_neg Bool.false_ne_true, ite_self]
    exact ⟨hrs.good, hbounded, hkept, hleft, h.disjoint, h.apart, h.allocated⟩

theorem setArea (h : Inv s) {validate allocate : Bool}
    (hfits : s.FitsArea base length validate allocate) :
    Inv (s.step (.setArea base length validate allocate)) := by
  cases allocate with
  | false => exact h.deallocateArea hfits
  | true => exact h.allocateArea hfits.1 hfits.2

theorem step (h : Inv s) (a : Action) (hfits : s.Fits a) : Inv (s.step a) := by
  cases a with
  | addRange => exact h.addRange hfits
  | alloc => exact h.alloc hfits.1 hfits.2
  | allocSubrange => exact h.allocSubrange hfits
  | dealloc =>
    unfold System.step
    dsimp only
    split_ifs with ha
    · rw [show _ = _ from hfits]
      exact h.dealloc ha
    · exact h
  | setArea => exact h.setArea hfits
  | setRandomize randomize => exact h.setRandomize randomize

theorem safe (h : Inv s) : s.Safe := by
  refine ⟨h.disjoint, h.apart, fun a ha => ?_, fun a ha => ?_, h.allocated⟩
  · obtain ⟨r, hr, hge, hle⟩ := (h.live a ha).inside
    refine ⟨r, hr, fun p hp => ?_⟩
    rw [Alloc.range, Range.mem_ofLength] at hp
    rw [Range.mem_def]
    omega
  · have hlive := h.live a ha
    rw [← findOrder_eq_clog, ← Nat.mul_div_cancel' hlive.addr]
    exact Nat.mul_dvd_mul_left _ hlive.aligned

end Inv

/-- In every run whose searches begin aligned and whose numbers fit, the heap is safe. -/
theorem idHeap_safe (pageOrder : Nat) (parent : Option Nat) (as : List Action)
    (hfits : AllSteps System.step System.Fits (init pageOrder parent) as) :
    (run System.step (init pageOrder parent) as).Safe := by
  have hinv : Inv (run System.step (init pageOrder parent) as) :=
    run_invariant_of_allSteps (fun _ a hinv hstep => hinv.step a hstep)
      (inv_init pageOrder parent) hfits
  exact hinv.safe

theorem idHeap_safe_aligned :
    (run System.step (init 12 none)
      [.addRange 0x10000 0x80000, .setArea 0x20000 0x3000 true true, .setRandomize true,
        .alloc 0x3000 (fun _ => 64) none, .alloc 0x5000 (fun _ => 8) none,
          .dealloc ⟨0x50000, 0x3000⟩ 0x3000]).Safe :=
  idHeap_safe 12 none _ (by decide +kernel)

/-- Three pages from bit 62 on: the mask loses the third bit, which is in the next word and
belongs to the first allocation. -/
theorem random_overlap :
    ¬ (run System.step (init 0 none)
      [.addRange 0 128, .setRandomize true, .alloc 3 (fun _ => 64) none,
        .alloc 3 (fun _ => 62) none]).Safe := by
  have hmeets : ¬ List.Pairwise (fun a b : Alloc => Apart (a.range 1) (b.range 1))
      [⟨62, 3⟩, ⟨64, 3⟩] := by decide
  have hlive : (run System.step (init 0 none)
      [.addRange 0 128, .setRandomize true, .alloc 3 (fun _ => 64) none,
        .alloc 3 (fun _ => 62) none]).live =
        [⟨62, 3⟩, ⟨64, 3⟩] := by decide +kernel
  intro hsafe
  exact hmeets (hlive ▸ hsafe.disjoint)

end Jerboa.Heap
