import Mathlib.Order.Basic

/-!
# Machines that read a text

A machine takes a character and goes to its next state, or hands the character
to another state, or stops with an error.  A character can be handed on for
ever, so that reading a text needs fuel; `Feeds` is the relation without it.
-/

namespace Jerboa.Lib.Feed

inductive Move (ε σ : Type) where
  | take (s : σ)
  | again (s : σ)
  | fail (e : ε)

variable {ε ε' α β σ τ : Type}

variable {as : List α}

section Machine

variable (move : σ → α → Move ε σ)

/-- Reads the text.  `none` stands for a run that is still at work when the fuel
is spent. -/
def feed : Nat → σ → List α → Option (Except ε σ)
  | _, s, [] => some (.ok s)
  | 0, _, _ :: _ => none
  | fuel + 1, s, a :: as =>
    match move s a with
    | .take s' => feed fuel s' as
    | .again s' => feed fuel s' (a :: as)
    | .fail e => some (.error e)

inductive Feeds : σ → List α → σ → Prop
  | nil (s : σ) : Feeds s [] s
  | take {s s' t : σ} {a : α} {as : List α} (h : move s a = .take s') (hrest : Feeds s' as t) :
      Feeds s (a :: as) t
  | again {s s' t : σ} {a : α} {as : List α} (h : move s a = .again s')
      (hrest : Feeds s' (a :: as) t) : Feeds s (a :: as) t

variable {move}

theorem Feeds.of_take {s s' t : σ} {a : α} (hmove : move s a = .take s')
    (h : Feeds move s (a :: as) t) : Feeds move s' as t := by
  cases h with
  | take hm hrest =>
    cases hmove.symm.trans hm
    exact hrest
  | again hm => cases hmove.symm.trans hm

theorem Feeds.of_again {s s' t : σ} {a : α} (hmove : move s a = .again s')
    (h : Feeds move s (a :: as) t) : Feeds move s' (a :: as) t := by
  cases h with
  | take hm => cases hmove.symm.trans hm
  | again hm hrest =>
    cases hmove.symm.trans hm
    exact hrest

theorem feeds_of_feed {fuel : Nat} {s t : σ} (h : feed move fuel s as = some (.ok t)) :
    Feeds move s as t := by
  induction fuel generalizing s as with
  | zero =>
    cases as with
    | nil =>
      cases h
      exact .nil t
    | cons => cases h
  | succ fuel ih =>
    cases as with
    | nil =>
      cases h
      exact .nil t
    | cons =>
      rw [feed] at h
      split at h
      · next s' hmove => exact .take hmove (ih h)
      · next s' hmove => exact .again hmove (ih h)
      · cases h

theorem Feeds.exists_fuel {s t : σ} (h : Feeds move s as t) :
    ∃ fuel, feed move fuel s as = some (.ok t) := by
  induction h with
  | nil => exact ⟨0, rfl⟩
  | take hmove _ ih | again hmove _ ih =>
    obtain ⟨fuel, hfuel⟩ := ih
    exact ⟨fuel + 1, by simp only [feed, hmove, hfuel]⟩

theorem Feeds.unique {s t t' : σ} (h : Feeds move s as t) (h' : Feeds move s as t') : t = t' := by
  induction h with
  | nil =>
    cases h'
    rfl
  | take hmove _ ih => exact ih (h'.of_take hmove)
  | again hmove _ ih => exact ih (h'.of_again hmove)

end Machine

/-- The second machine does what the first one does, unless that fails. -/
def InStep (R : σ → τ → Prop) : Move ε σ → Move ε' τ → Prop
  | .take s, .take t => R s t
  | .again s, .again t => R s t
  | .fail _, _ => True
  | _, _ => False

theorem Feeds.simulate {m : σ → α → Move ε σ} {n : τ → β → Move ε' τ} {f : α → β} {R : σ → τ → Prop}
    (hstep : ∀ s t a, R s t → InStep R (m s a) (n t (f a))) {s s' : σ} {t : τ} (h : Feeds m s as s')
    (hR : R s t) :
    ∃ t', Feeds n t (as.map f) t' ∧ R s' t' := by
  induction h generalizing t with
  | nil => exact ⟨t, .nil t, hR⟩
  | @take s s₁ s' a as hmove _ ih =>
    have hin := hstep s t a hR
    rw [hmove] at hin
    cases hmove' : n t (f a) with
    | take =>
      rw [hmove'] at hin
      obtain ⟨t', hfeeds, hR'⟩ := ih hin
      exact ⟨t', .take hmove' hfeeds, hR'⟩
    | again =>
      rw [hmove'] at hin
      exact hin.elim
    | fail =>
      rw [hmove'] at hin
      exact hin.elim
  | @again s s₁ s' a as hmove _ ih =>
    have hin := hstep s t a hR
    rw [hmove] at hin
    cases hmove' : n t (f a) with
    | take =>
      rw [hmove'] at hin
      exact hin.elim
    | again =>
      rw [hmove'] at hin
      obtain ⟨t', hfeeds, hR'⟩ := ih hin
      exact ⟨t', .again hmove' hfeeds, hR'⟩
    | fail =>
      rw [hmove'] at hin
      exact hin.elim

end Jerboa.Lib.Feed
