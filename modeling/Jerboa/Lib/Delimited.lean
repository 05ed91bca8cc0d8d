import Mathlib.Logic.Basic
import Mathlib.Tactic.SplitIfs

/-!
# Texts with separators

Cutting a text at the first separator, splitting it at every one, and writing a
separator twice where it is part of a value.
-/

namespace Jerboa.Lib.Delimited

open List

variable {α : Type*}

theorem intercalate_cons (c : α) (first : List α) (tokens : List (List α)) :
    [c].intercalate (first :: tokens) = first ++ tokens.flatMap (c :: ·) := by
  induction tokens generalizing first with
  | nil => simp
  | cons token tokens ih =>
    rw [intercalate_cons_cons, ih token]
    simp

theorem mem_intercalate {c x : α} {parts : List (List α)} (h : x ∈ [c].intercalate parts) :
    x = c ∨ ∃ part ∈ parts, x ∈ part := by
  cases parts with
  | nil => cases h
  | cons first =>
    rw [intercalate_cons, mem_append, mem_flatMap] at h
    rcases h with h | ⟨part, hpart, h⟩
    · exact .inr ⟨first, mem_cons_self, h⟩
    · exact (mem_cons.mp h).imp_right fun h => ⟨part, mem_cons_of_mem _ hpart, h⟩

variable [DecidableEq α]

def cut (c : α) : List α → Option (List α × List α)
  | [] => none
  | x :: s => if x = c then some ([], s) else (cut c s).map fun r => (x :: r.1, r.2)

variable {c : α}

theorem cut_append {a : List α} (h : c ∉ a) (b : List α) :
    cut c (a ++ c :: b) = some (a, b) := by
  induction a with
  | nil => simp [cut]
  | cons x a ih =>
    rw [mem_cons, not_or] at h
    simp [cut, Ne.symm h.1, ih h.2]

theorem eq_of_cut {s a b : List α} (h : cut c s = some (a, b)) :
    s = a ++ c :: b ∧ c ∉ a := by
  induction s generalizing a with
  | nil => cases h
  | cons x s ih =>
    unfold cut at h
    split_ifs at h with hx
    · cases h
      exact ⟨by rw [hx]; rfl, not_mem_nil⟩
    · obtain ⟨⟨a', b'⟩, hcut, heq⟩ := Option.map_eq_some_iff.mp h
      cases heq
      obtain ⟨hs, hnot⟩ := ih hcut
      refine ⟨by rw [hs]; rfl, ?_⟩
      rw [mem_cons, not_or]
      exact ⟨Ne.symm hx, hnot⟩

theorem cut_eq_none {s : List α} : cut c s = none ↔ c ∉ s := by
  induction s with
  | nil => simp [cut]
  | cons x s ih =>
    by_cases hx : x = c
    · simp [cut, hx]
    · simp [cut, hx, ih, Ne.symm hx]

def cutLast (c : α) (s : List α) : Option (List α × List α) :=
  (cut c s.reverse).map fun r => (r.2.reverse, r.1.reverse)

theorem cutLast_append {b : List α} (h : c ∉ b) (a : List α) :
    cutLast c (a ++ c :: b) = some (a, b) := by
  have hcut := cut_append (mt mem_reverse.mp h) a.reverse
  rw [cutLast, reverse_append, reverse_cons, append_assoc, singleton_append, hcut]
  simp

theorem append_cons_inj_right {a b a' b' : List α} (hb : c ∉ b) (hb' : c ∉ b')
    (h : a ++ c :: b = a' ++ c :: b') : a = a' ∧ b = b' :=
  Prod.mk.inj (Option.some.inj ((cutLast_append hb a).symm.trans (h ▸ cutLast_append hb' a')))

theorem splitOn_tokens {first : List α} (tokens : List (List α)) (hfirst : c ∉ first)
    (htokens : ∀ token ∈ tokens, c ∉ token) :
    (first ++ tokens.flatMap (c :: ·)).splitOn c = first :: tokens := by
  rw [← intercalate_cons]
  exact splitOn_intercalate c (forall_mem_cons.mpr ⟨hfirst, htokens⟩)
    (cons_ne_nil _ _)

def double (c : α) (s : List α) : List α := s.flatMap fun x => if x = c then [c, c] else [x]

/-- The text up to a `c` that is not written twice, and what follows it. -/
def undouble (c : α) : List α → List α × List α
  | [] => ([], [])
  | [x] => if x = c then ([], []) else ([x], [])
  | x :: y :: s =>
    if x = c then
      if y = c then (c :: (undouble c s).1, (undouble c s).2) else ([], y :: s)
    else (x :: (undouble c (y :: s)).1, (undouble c (y :: s)).2)

theorem undouble_cons_of_ne {c x : α} (hx : x ≠ c) (s : List α) :
    undouble c (x :: s) = (x :: (undouble c s).1, (undouble c s).2) := by
  cases s with
  | nil | cons => simp [undouble, hx]

theorem undouble_double (c : α) (s : List α) : undouble c (double c s) = (s, []) := by
  induction s with
  | nil => rfl
  | cons x s ih =>
    by_cases hx : x = c
    · have hcons : double c (x :: s) = c :: c :: double c s := by simp [double, hx]
      rw [hcons, undouble, if_pos rfl, if_pos rfl, ih, hx]
    · have hcons : double c (x :: s) = x :: double c s := by simp [double, hx]
      rw [hcons, undouble_cons_of_ne hx, ih]

theorem undouble_append {a : List α} (h : c ∉ a) {x : α} (hx : x ≠ c) (s : List α) :
    undouble c (a ++ c :: x :: s) = (a, x :: s) := by
  induction a with
  | nil => simp [undouble, hx]
  | cons y a ih =>
    have hy : y ≠ c := fun heq => h (heq ▸ mem_cons_self)
    rw [cons_append, undouble_cons_of_ne hy, ih fun hc => h (mem_cons_of_mem y hc)]

end Jerboa.Lib.Delimited
