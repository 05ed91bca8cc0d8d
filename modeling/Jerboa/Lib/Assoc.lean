import Mathlib.Data.List.Basic

/-!
# Lists of bindings

A name is bound once: a second binding takes the place of the first.
-/

namespace Jerboa.Lib.Assoc

open List

variable {α α' β β' : Type} [DecidableEq α] [DecidableEq α']

/-- Binds the name, in the place where it was bound before or at the end. -/
def set : List (α × β) → α → β → List (α × β)
  | [], a, b => [(a, b)]
  | (x, y) :: l, a, b => if x = a then (x, b) :: l else (x, y) :: set l a b

def find : List (α × β) → α → Option β
  | [], _ => none
  | (x, y) :: l, a => if x = a then some y else find l a

variable {l : List (α × β)} {a : α} {b : β}

theorem mem_of_find (h : find l a = some b) : (a, b) ∈ l := by
  induction l with
  | nil => cases h
  | cons e l ih =>
    obtain ⟨x, y⟩ := e
    rw [find] at h
    split at h
    · next heq =>
      subst heq
      cases h
      exact mem_cons_self
    · exact mem_cons_of_mem _ (ih h)

theorem mem_set {e : α × β} (h : e ∈ set l a b) :
    e = (a, b) ∨ e ∈ l := by
  induction l with
  | nil => exact .inl (mem_singleton.mp h)
  | cons e' l ih =>
    obtain ⟨x, y⟩ := e'
    rw [set] at h
    split at h
    · next heq =>
      subst heq
      rcases mem_cons.mp h with rfl | h
      · exact .inl rfl
      · exact .inr (mem_cons_of_mem _ h)
    · rcases mem_cons.mp h with rfl | h
      · exact .inr mem_cons_self
      · rcases ih h with rfl | h
        · exact .inl rfl
        · exact .inr (mem_cons_of_mem _ h)

theorem find_set (l : List (α × β)) (a a' : α) (b : β) :
    find (set l a b) a' = if a = a' then some b else find l a' := by
  induction l with
  | nil => rfl
  | cons e l ih =>
    obtain ⟨x, y⟩ := e
    by_cases hx : x = a
    · subst hx
      by_cases hx' : x = a'
      · simp [set, find, hx']
      · simp [set, find, hx']
    · by_cases hx' : x = a'
      · subst hx'
        simp [set, find, hx, Ne.symm hx]
      · simp [set, find, hx, hx', ih]

theorem find_filter (l : List (α × β)) (keep : α → Bool) (a : α) :
    find (l.filter fun e => keep e.1) a = if keep a then find l a else none := by
  induction l with
  | nil => simp [find]
  | cons e l ih =>
    obtain ⟨x, y⟩ := e
    by_cases hx : x = a
    · subst hx
      by_cases hkeep : keep x = true <;> simp [find, hkeep, ih]
    · by_cases hkeep : keep x = true <;> simp [find, hx, hkeep, ih]

theorem map_set {f : α → α'} (hf : Function.Injective f) (g : β → β') (l : List (α × β)) (a : α)
    (b : β) : (set l a b).map (Prod.map f g) = set (l.map (Prod.map f g)) (f a) (g b) := by
  induction l with
  | nil => rfl
  | cons e l ih =>
    obtain ⟨x, y⟩ := e
    by_cases h : x = a
    · simp [set, h]
    · have hne : f x ≠ f a := fun heq => h (hf heq)
      simp [set, h, hne, ih]

end Jerboa.Lib.Assoc
