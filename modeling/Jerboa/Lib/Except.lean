import Mathlib.Tactic.SplitIfs

/-!
# Fallible computations

The rules by which a computation in `Except` that succeeded is taken apart
into the steps that succeeded, in order.
-/

namespace Jerboa.Lib

universe u v

variable {ε ε' : Type u} {α β : Type v}

def throwIf (c : Prop) [Decidable c] (err : ε) : Except ε Unit :=
  if c then .error err else .ok ()

@[simp] theorem throwIf_eq_ok (c : Prop) [Decidable c] (err : ε) (u : Unit) :
    throwIf c err = .ok u ↔ ¬c := by
  unfold throwIf
  split_ifs with hc <;> simp [hc]

variable {err : ε}

variable {x : Except ε α} {a : α}

theorem ite_error_eq_ok {c : Prop} [Decidable c] :
    (if c then .error err else x) = .ok a ↔ ¬c ∧ x = .ok a := by
  split_ifs with hc <;> simp [hc]

@[simp] theorem bind_eq_ok {f : α → Except ε β} {b : β} :
    (x >>= f) = .ok b ↔ ∃ a, x = .ok a ∧ f a = .ok b := by
  cases x with
  | error | ok => simp [bind, Except.bind]

@[simp] theorem map_eq_ok {f : α → β} {b : β} :
    f <$> x = .ok b ↔ ∃ a, x = .ok a ∧ f a = b := by
  cases x with
  | error | ok => simp [Functor.map, Except.map]

@[simp] theorem mapError_eq_ok {f : ε → ε'} :
    x.mapError f = .ok a ↔ x = .ok a := by
  cases x with
  | error | ok => simp [Except.mapError]

@[simp] theorem pure_eq_ok {a b : α} : (pure a : Except ε α) = .ok b ↔ a = b := by
  simp [pure, Except.pure]

@[simp] theorem throw_ne_ok : (throw err : Except ε α) = .ok a ↔ False := by
  simp [throw, throwThe, MonadExceptOf.throw]

theorem forM_eq_ok {γ : Type v} {l : List γ} {f : γ → Except ε PUnit} {u : PUnit}
    (h : l.forM f = .ok u) : ∀ c ∈ l, f c = .ok ⟨⟩ := by
  induction l with
  | nil => exact nofun
  | cons c l ih =>
    rw [List.forM] at h
    obtain ⟨⟨⟩, hc, hl⟩ := bind_eq_ok.mp h
    exact List.forall_mem_cons.mpr ⟨hc, ih hl⟩

theorem eq_ok_of_toOption (h : x.toOption = some a) :
    x = .ok a := by
  cases x with
  | error => cases h
  | ok => exact congrArg _ (Option.some.inj h)

end Jerboa.Lib
