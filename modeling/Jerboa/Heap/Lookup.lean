import Jerboa.Heap.Pages

/-!
# Lookups in the ranges

Deallocations and areas walk over the ranges that meet some pages.  A walk that comes to
the end has changed the marks of exactly these pages; one that ends at a gap or a failure
has changed the marks of some of them.
-/

namespace Jerboa.Heap

open List Lib

namespace IdHeap

variable {r : IdRange} {rs : List IdRange}

/-! ## The walk -/

variable {r' : IdRange}

section Lookup

variable {σ : Type} {q : Range} {f : σ → IdRange → Option (σ × IdRange)} {val : Bool}

/-- What a lookup does to the ranges: marks of `q` may become `val`. -/
structure Passed (q : Range) (val : Bool) (rs rs' : List IdRange) : Prop where
  ok : ∀ r ∈ rs', r.Ok
  map : rs'.map IdRange.r = rs.map IdRange.r
  out : ∀ p, p ∉ q → mark rs' p = mark rs p
  kept : ∀ p, mark rs p = val → mark rs' p = val

theorem Passed.refl (h : ∀ r ∈ rs, r.Ok) : Passed q val rs rs :=
  ⟨h, rfl, fun _ _ => rfl, fun _ => id⟩

theorem Passed.cons {r r' : IdRange} {rs' : List IdRange} (h : Passed q val rs rs') (hok : r'.Ok)
    (hr : r'.r = r.r) (hout : ∀ p ∈ r.r, p ∉ q → r'.marked p = r.marked p)
    (hkept : ∀ p ∈ r.r, r.marked p = val → r'.marked p = val) :
    Passed q val (r :: rs) (r' :: rs') := by
  refine ⟨forall_mem_cons.mpr ⟨hok, h.ok⟩, by rw [map_cons, map_cons, hr, h.map], fun p hp => ?_,
    fun p => ?_⟩ <;> rw [mark, mark, hr] <;> split_ifs with hmem
  · exact hout p hmem hp
  · exact h.out p hp
  · exact hkept p hmem
  · exact h.kept p

theorem lookup_nil (x : σ) (last : Nat) :
    lookup q f x last [] = ((x, []), decide (Apart ⟨last, q.stop⟩ q)) := by
  rw [lookup]
  simp only [span_intersection]

variable {last : Nat}

theorem lookup_gap (x : σ) (h : ¬ Apart ⟨last, r.r.start⟩ q) :
    lookup q f x last (r :: rs) = ((x, r :: rs), false) := by
  rw [lookup, if_pos (mt (span_intersection _ _).mp h)]

theorem lookup_apart (x : σ) (hgap : Apart ⟨last, r.r.start⟩ q) (h : Apart r.r q) :
    lookup q f x last (r :: rs) =
      (((lookup q f x r.r.stop rs).1.1, r :: (lookup q f x r.r.stop rs).1.2),
        (lookup q f x r.r.stop rs).2) := by
  rw [lookup, if_neg (not_not.mpr ((span_intersection _ _).mpr hgap)),
    if_pos ((span_intersection _ _).mpr h)]

theorem lookup_failed (x : σ) (hgap : Apart ⟨last, r.r.start⟩ q) (h : ¬ Apart r.r q)
    (hf : f x r = none) :
    lookup q f x last (r :: rs) = ((x, r :: rs), false) := by
  rw [lookup, if_neg (not_not.mpr ((span_intersection _ _).mpr hgap)),
    if_neg (mt (span_intersection _ _).mp h), hf]

theorem lookup_meets {x x' : σ} (hgap : Apart ⟨last, r.r.start⟩ q) (h : ¬ Apart r.r q)
    (hf : f x r = some (x', r')) :
    lookup q f x last (r :: rs) =
      (((lookup q f x' r'.r.stop rs).1.1, r' :: (lookup q f x' r'.r.stop rs).1.2),
        (lookup q f x' r'.r.stop rs).2) := by
  rw [lookup, if_neg (not_not.mpr ((span_intersection _ _).mpr hgap)),
    if_neg (mt (span_intersection _ _).mp h), hf]

/-- A lookup changes marks of `q` only, and if it comes to the end, all of them, and the
handler was called for every range that meets `q`. -/
theorem lookup_spec {P : IdRange → Prop}
    (hf : ∀ r ∈ rs, ∀ x x' r', ¬ Apart r.r q → f x r = some (x', r') → r.Changed r' q val ∧ P r)
    (hok : ∀ r ∈ rs, r.Ok) (x : σ) (last : Nat) :
    Passed q val rs (lookup q f x last rs).1.2 ∧
      ((lookup q f x last rs).2 = true →
        (∀ p ∈ q, last ≤ p → Has rs p ∧ mark (lookup q f x last rs).1.2 p = val) ∧
          ∀ r ∈ rs, ¬ Apart r.r q → P r) := by
  induction rs generalizing x last with
  | nil =>
    rw [lookup_nil]
    refine ⟨.refl hok, fun hend => ⟨fun p hp hlast => ?_, nofun⟩⟩
    rw [decide_eq_true_eq, apart_iff] at hend
    exact absurd hp (hend p (Range.mem_def.mpr ⟨hlast, (Range.mem_def.mp hp).2⟩))
  | cons r rs ih =>
    by_cases hgap : Apart ⟨last, r.r.start⟩ q
    · have hrest := fun x => ih (fun r' hr' => hf r' (mem_cons_of_mem r hr'))
        (fun r' hr' => hok r' (mem_cons_of_mem r hr')) x r.r.stop
      -- a page of `q` is in this range or after it
      have hcases : ∀ p ∈ q, last ≤ p → p ∈ r.r ∨ r.r.stop ≤ p := by
        intro p hp hlast
        by_cases hstart : p < r.r.start
        · exact absurd hp (apart_iff.mp hgap p (Range.mem_def.mpr ⟨hlast, hstart⟩))
        · rw [Range.mem_def]
          omega
      by_cases hmeets : Apart r.r q
      · rw [lookup_apart x hgap hmeets]
        obtain ⟨hpassed, hend⟩ := hrest x
        refine ⟨hpassed.cons (hok r mem_cons_self) rfl (fun _ _ _ => rfl) fun _ _ => id,
            fun hdone =>
          ⟨fun p hp hlast => ?_, forall_mem_cons.mpr ⟨absurd hmeets, (hend hdone).2⟩⟩⟩
        have hout : p ∉ r.r := fun hmem => apart_iff.mp hmeets p hmem hp
        obtain ⟨hhas, hmark⟩ := (hend hdone).1 p hp ((hcases p hp hlast).resolve_left hout)
        rw [mark, if_neg hout]
        exact ⟨hhas.cons, hmark⟩
      · cases hr' : f x r with
        | none =>
          rw [lookup_failed x hgap hmeets hr']
          exact ⟨.refl hok, Bool.noConfusion⟩
        | some y =>
          obtain ⟨x', r'⟩ := y
          obtain ⟨hchanged, hP⟩ := hf r mem_cons_self x x' r' hmeets hr'
          obtain ⟨hpassed, hend⟩ := hrest x'
          rw [lookup_meets hgap hmeets hr', hchanged.range]
          refine ⟨hpassed.cons hchanged.ok hchanged.range (fun p hmem hp => ?_)
              (fun p hmem hp => ?_), fun hdone =>
            ⟨fun p hp hlast => ?_, forall_mem_cons.mpr ⟨fun _ => hP, (hend hdone).2⟩⟩⟩
          · rw [hchanged.marked p hmem, if_neg hp]
          · rw [hchanged.marked p hmem, hp, ite_self]
          · rw [mark, hchanged.range]
            by_cases hmem : p ∈ r.r
            · rw [if_pos hmem, hchanged.marked p hmem, if_pos hp]
              exact ⟨⟨r, mem_cons_self, hmem⟩, rfl⟩
            · obtain ⟨hhas, hmark⟩ := (hend hdone).1 p hp ((hcases p hp hlast).resolve_left hmem)
              rw [if_neg hmem]
              exact ⟨hhas.cons, hmark⟩
    · rw [lookup_gap x hgap]
      exact ⟨.refl hok, Bool.noConfusion⟩

theorem lookup_eq_true (hgood : Good rs)
    (hf : ∀ r ∈ rs, ∀ x, ¬ Apart r.r q → ∃ x' r', f x r = some (x', r') ∧ r'.r = r.r) (x : σ)
    (hlast : last ≤ q.start ∨ ∀ r ∈ rs, last ≤ r.r.start) (hhas : ∀ p ∈ q, last ≤ p → Has rs p) :
    (lookup q f x last rs).2 = true := by
  induction rs generalizing x last with
  | nil =>
    rw [lookup_nil, decide_eq_true_eq, apart_iff]
    intro p hmem hp
    obtain ⟨r, hr, -⟩ := hhas p hp (Range.mem_def.mp hmem).1
    exact absurd hr not_mem_nil
  | cons r rs ih =>
    have hlt := (hgood.ok r mem_cons_self).lt
    have htail : ∀ x, (lookup q f x r.r.stop rs).2 = true := by
      refine fun x => ih hgood.tail (fun r' hr' => hf r' (mem_cons_of_mem r hr')) x
        (.inr fun r' hr' => hgood.stop_le hr') fun p hp hstop => ?_
      have hle : last ≤ p := by
        have hq := (Range.mem_def.mp hp).1
        rcases hlast with hlast | hlast
        · omega
        · have hstart := hlast r mem_cons_self
          omega
      obtain ⟨r', hr', hp'⟩ := hhas p hp hle
      rcases mem_cons.mp hr' with rfl | hr'
      · rw [Range.mem_def] at hp'
        omega
      · exact ⟨r', hr', hp'⟩
    have hgap : Apart ⟨last, r.r.start⟩ q := by
      rw [apart_iff]
      intro p hmem hp
      rw [Range.mem_def] at hmem
      obtain ⟨r', hr', hp'⟩ := hhas p hp hmem.1
      rw [Range.mem_def] at hp'
      dsimp only at hmem
      rcases mem_cons.mp hr' with rfl | hr'
      · omega
      · have hstop := hgood.stop_le hr'
        omega
    by_cases hmeets : Apart r.r q
    · rw [lookup_apart x hgap hmeets]
      exact htail x
    · obtain ⟨x', r', hr', hsame⟩ := hf r mem_cons_self x hmeets
      rw [lookup_meets hgap hmeets hr', hsame]
      exact htail x'

theorem lookup_past (x : σ) (hq : q.stop ≤ last) (hrs : ∀ r ∈ rs, q.stop ≤ r.r.start)
    (hlt : ∀ r ∈ rs, r.r.start < r.r.stop) : lookup q f x last rs = ((x, rs), true) := by
  induction rs generalizing last with
  | nil => rw [lookup_nil, decide_eq_true (.of_ge hq)]
  | cons r rs ih =>
    have hstart := hrs r mem_cons_self
    have hstop := hlt r mem_cons_self
    rw [lookup_apart x (.of_ge hq) (.of_ge hstart),
      ih (by omega) (fun r' hr' => hrs r' (mem_cons_of_mem r hr')) fun r' hr' =>
        hlt r' (mem_cons_of_mem r hr')]

theorem lookup_single (hgood : Good rs) (hr : r ∈ rs) (hstart : r.r.start ≤ q.start)
    (hstop : q.stop ≤ r.r.stop) (hq : q.start < q.stop) {x x' : σ} (hf : f x r = some (x', r'))
    (hsame : r'.r = r.r) (last : Nat) :
    (lookup q f x last rs).1.1 = x' ∧ (lookup q f x last rs).2 = true := by
  induction rs generalizing last with
  | nil => exact absurd hr not_mem_nil
  | cons r₁ rs ih =>
    rcases mem_cons.mp hr with rfl | hr
    · have hmeets : ¬ Apart r.r q := by
        unfold Apart
        omega
      rw [lookup_meets (.of_le hstart) hmeets hf, hsame,
          lookup_past x' hstop (fun r' hr' => hstop.trans (hgood.stop_le hr')) fun r' hr' =>
        (hgood.tail.ok r' hr').lt]
      exact ⟨rfl, rfl⟩
    · have hlt := (hgood.ok r₁ mem_cons_self).lt
      have hle := hgood.stop_le hr
      rw [lookup_apart x (.of_le (show r₁.r.start ≤ q.start by omega)) (.of_le (hle.trans hstart))]
      exact ih hgood.tail hr _

end Lookup

/-! ## Handlers -/

structure Part (q : Range) (r : IdRange) : Prop where
  bit : toInt ((intersection q r.r).start - r.bitmapStart) =
    (intersection q r.r).start - r.bitmapStart
  start_le : r.r.start ≤ (intersection q r.r).start
  lt : (intersection q r.r).start < (intersection q r.r).stop
  stop_le : (intersection q r.r).stop ≤ r.r.stop
  mem : ∀ p ∈ r.r, p ∈ intersection q r.r ↔ p ∈ q

theorem part_of_not_apart {q : Range} (h : r.Ok) (hmeets : ¬ Apart r.r q) : Part q r := by
  have hapart : ¬ Apart q r.r := fun hapart => hmeets hapart.symm
  have hmem := mem_intersection hapart
  rw [intersection_of_not_apart hapart] at hmem
  have hstart := h.start_le
  have hfits := h.fits
  unfold Apart at hapart
  refine ⟨toInt_eq_self ?_, ?_, ?_, ?_, fun p hp => ?_⟩ <;>
    rw [intersection_of_not_apart (fun hapart => hmeets hapart.symm)]
  · dsimp only
    omega
  · exact Nat.le_max_right _ _
  · dsimp only
    omega
  · exact Nat.min_le_right _ _
  · rw [hmem p]
    exact ⟨And.left, fun hq => ⟨hq, hp⟩⟩

variable {q : Range}

theorem Part.changed (h : Part q r) (hok : r.Ok) {b : Bitmap} {val : Bool}
    (hmax : b.maxbits = r.bitmap.maxbits)
    (hbits : SetRange r.bitmap.map b.map ((intersection q r.r).start - r.bitmapStart)
      (intersection q r.r).span val) :
    r.Changed { r with bitmap := b } q val := by
  obtain ⟨maxbits, map⟩ := b
  cases hmax
  have hchanged := hok.changed (hok.start_le.trans h.start_le) hbits
  refine ⟨hchanged.ok, rfl, fun p hp => ?_⟩
  exact (hchanged.marked p hp).trans (if_congr (h.mem p hp) rfl rfl)

theorem Part.getBit_eq (h : Part q r) (hok : r.Ok) {val : Bool}
    (hmarked : ∀ p ∈ r.r, p ∈ q → r.marked p = val) (i : Nat)
    (hlow : (intersection q r.r).start - r.bitmapStart ≤ i)
    (hhigh : i < (intersection q r.r).start - r.bitmapStart + (intersection q r.r).span) :
    getBit r.bitmap.map i = val := by
  have hbase := hok.start_le
  have hle := h.start_le
  have hlt := h.lt
  have hstop := h.stop_le
  rw [Range.span] at hhigh
  have hmem : r.bitmapStart + i ∈ intersection q r.r := by
    rw [Range.mem_def]
    omega
  have hr : r.bitmapStart + i ∈ r.r := by
    rw [Range.mem_def]
    omega
  have hget := hmarked _ hr ((h.mem _ hr).mp hmem)
  rwa [IdRange.marked, Nat.add_sub_cancel_left] at hget

theorem Part.maxbits (h : Part q r) (hok : r.Ok) :
    (intersection q r.r).start - r.bitmapStart + (intersection q r.r).span ≤ r.bitmap.maxbits := by
  have hbase := hok.start_le
  have hle := h.start_le
  have hlt := h.lt
  have hstop := h.stop_le
  rw [hok.maxbits, Range.span]
  omega

theorem setIntersection_changed {validate allocate : Bool} (h : r.Ok) (hmeets : ¬ Apart r.r q)
    {x x' : Unit} (hset : setIntersection q validate allocate x r = some (x', r')) :
    r.Changed r' q allocate ∧ (validate = true → ∀ p ∈ r.r, p ∈ q → r.marked p = !allocate) := by
  have hpart := part_of_not_apart h hmeets
  obtain ⟨b, hb, heq⟩ := Option.map_eq_some_iff.mp hset
  cases heq
  rw [hpart.bit] at hb
  obtain ⟨hmax, hbits, hvalid⟩ := Bitmap.rangeCheckAndSet_spec hb
  refine ⟨hpart.changed h hmax hbits, fun hvalidate p hp hq => ?_⟩
  have hbase := h.start_le
  have hp' := Range.mem_def.mp ((hpart.mem p hp).mpr hq)
  have hr := Range.mem_def.mp hp
  refine hvalid hvalidate (p - r.bitmapStart) (by omega) ?_
  rw [Range.span]
  have hle := hpart.start_le
  omega

theorem setIntersection_eq_some {validate allocate : Bool} (h : r.Ok) (hmeets : ¬ Apart r.r q)
    (hvalid : validate = true → ∀ p ∈ r.r, p ∈ q → r.marked p = !allocate) (x : Unit) :
    ∃ x' r', setIntersection q validate allocate x r = some (x', r') ∧ r'.r = r.r := by
  have hpart := part_of_not_apart h hmeets
  have hpos : 0 < (intersection q r.r).span := Nat.sub_pos_of_lt hpart.lt
  obtain ⟨b, hb⟩ := Bitmap.exists_rangeCheckAndSet hpos (hpart.maxbits h) fun hvalidate =>
    hpart.getBit_eq h (hvalid hvalidate)
  refine ⟨x, { r with bitmap := b }, ?_, rfl⟩
  rw [setIntersection, hpart.bit, hb, Option.map_some]

theorem deallocFromRange_changed {pageSize : Nat} (h : r.Ok) (hmeets : ¬ Apart r.r q) {x x' : Nat}
    (hdealloc : deallocFromRange q pageSize x r = some (x', r')) : r.Changed r' q false := by
  have hpart := part_of_not_apart h hmeets
  have hbase := h.start_le
  have hle := hpart.start_le
  unfold deallocFromRange at hdealloc
  dsimp only at hdealloc
  rw [hpart.bit] at hdealloc
  cases hb : r.bitmap.dealloc ((intersection q r.r).start - r.bitmapStart)
    (intersection q r.r).span with
  | none =>
    rw [hb] at hdealloc
    cases hdealloc
  | some =>
    rw [hb] at hdealloc
    dsimp only at hdealloc
    obtain ⟨hmax, hbits⟩ := Bitmap.dealloc_spec hb
    have hchanged := hpart.changed h hmax hbits
    split_ifs at hdealloc with hcount hnext
    · cases hdealloc
      refine ⟨hchanged.ok.setNextBit ?_, ?_, fun p hp => ?_⟩
      · have hsum : r.bitmapStart + ((intersection q r.r).start - r.bitmapStart) =
            (intersection q r.r).start := by
          omega
        rw [← hnext.1, hsum]
        exact Nat.dvd_of_mod_eq_zero hnext.2.1
      · rw [IdRange.r_setNextBit]
      · rw [IdRange.marked_setNextBit]
        exact hchanged.marked p hp
    · cases hdealloc
      exact hchanged

theorem deallocFromRange_eq_some {pageSize x : Nat} (h : r.Ok) (hmeets : ¬ Apart r.r q)
    (hmarked : ∀ p ∈ r.r, p ∈ q → r.marked p = true)
    (hcount : (intersection q r.r).span * pageSize ≤ x) :
    ∃ r', deallocFromRange q pageSize x r = some
      (x - (intersection q r.r).span * pageSize, r') := by
  have hpart := part_of_not_apart h hmeets
  obtain ⟨b, hb⟩ := Bitmap.exists_dealloc (hpart.maxbits h) (hpart.getBit_eq h hmarked)
  rw [deallocFromRange]
  rw [hpart.bit, hb]
  dsimp only
  rw [if_neg (by omega)]
  exact ⟨_, rfl⟩

end IdHeap

end Jerboa.Heap
