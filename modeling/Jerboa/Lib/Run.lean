import Mathlib.Algebra.GroupWithZero.Nat

/-!
# Runs of transition functions

A system is a total transition function `σ → α → σ`: an action that cannot
happen, or whose request is refused, leaves the state alone.  This module has
its runs and the rules by which a fact about one step becomes a fact about
every run.
-/

namespace Jerboa.Lib.Run

variable {σ α : Type*} {step : σ → α → σ}

/-- The state after the actions `as`, in order. -/
def run (step : σ → α → σ) (s : σ) (as : List α) : σ := as.foldl step s

@[simp] theorem run_nil (s : σ) : run step s [] = s := rfl

@[simp] theorem run_cons (s : σ) (a : α) (as : List α) :
    run step s (a :: as) = run step (step s a) as := rfl

theorem run_append (s : σ) (as bs : List α) :
    run step s (as ++ bs) = run step (run step s as) bs :=
  List.foldl_append

/-- Every step of the run meets `P`, which sees the state before the step. -/
def AllSteps (step : σ → α → σ) (P : σ → α → Prop) : σ → List α → Prop
  | _, [] => True
  | s, a :: as => P s a ∧ AllSteps step P (step s a) as

instance AllSteps.decidable (P : σ → α → Prop) [∀ s a, Decidable (P s a)] :
    ∀ s as, Decidable (AllSteps step P s as)
  | _, [] => .isTrue trivial
  | s, a :: as =>
    have := AllSteps.decidable P (step s a) as
    inferInstanceAs (Decidable (P s a ∧ AllSteps step P (step s a) as))

theorem allSteps_append {P : σ → α → Prop} (s : σ) (as bs : List α) :
    AllSteps step P s (as ++ bs) ↔
      AllSteps step P s as ∧ AllSteps step P (run step s as) bs := by
  induction as generalizing s with
  | nil => simp [AllSteps]
  | cons a as ih => simp [AllSteps, ih, and_assoc]

variable {as : List α} {s : σ}

theorem AllSteps.take {P : σ → α → Prop} (has : AllSteps step P s as) (n : Nat) :
    AllSteps step P s (as.take n) := by
  rw [← List.take_append_drop n as, allSteps_append] at has
  exact has.1

theorem allSteps_of_forall {Q : α → Prop} (hQ : ∀ a ∈ as, Q a) :
    AllSteps step (fun _ a => Q a) s as := by
  induction as generalizing s with
  | nil => trivial
  | cons a as ih =>
    exact ⟨hQ a List.mem_cons_self, ih fun b hb => hQ b (List.mem_cons_of_mem a hb)⟩

variable {P Q : σ → α → Prop}

theorem AllSteps.imp (h : ∀ s a, P s a → Q s a) (has : AllSteps step P s as) :
    AllSteps step Q s as := by
  induction as generalizing s with
  | nil => trivial
  | cons a as ih => exact ⟨h s a has.1, ih has.2⟩

theorem AllSteps.and_forall {P : σ → α → Prop} {Q : α → Prop} (has : AllSteps step P s as)
    (hQ : ∀ a ∈ as, Q a) :
    AllSteps step (fun s a => Q a ∧ P s a) s as := by
  induction as generalizing s with
  | nil => trivial
  | cons a as ih =>
    exact ⟨⟨hQ a List.mem_cons_self, has.1⟩,
      ih has.2 fun b hb => hQ b (List.mem_cons_of_mem a hb)⟩

variable {I : σ → Prop}

theorem run_invariant (hstep : ∀ s a, I s → I (step s a)) (hs : I s) (as : List α) :
    I (run step s as) := by
  induction as generalizing s with
  | nil => exact hs
  | cons a as ih => exact ih (hstep s a hs)

theorem run_invariant_of_allSteps {P : σ → α → Prop} (hstep : ∀ s a, I s → P s a → I (step s a))
    (hs : I s) (has : AllSteps step P s as) : I (run step s as) := by
  induction as generalizing s with
  | nil => exact hs
  | cons a as ih => exact ih (hstep s a hs has.1) has.2

theorem AllSteps.of_invariant (hstep : ∀ s a, I s → P s a → I (step s a))
    (hQ : ∀ s a, I s → P s a → Q s a) (hs : I s) (has : AllSteps step P s as) :
    AllSteps step Q s as := by
  induction as generalizing s with
  | nil => trivial
  | cons a as ih => exact ⟨hQ s a hs has.1, ih (hstep s a hs has.1) has.2⟩

theorem allSteps_congr (hstep : ∀ s a, I s → I (step s a)) (hiff : ∀ s a, I s → (P s a ↔ Q s a))
    (hs : I s) (as : List α) : AllSteps step P s as ↔ AllSteps step Q s as := by
  induction as generalizing s with
  | nil => exact Iff.rfl
  | cons a as ih => exact and_congr (hiff s a hs) (ih (hstep s a hs))

theorem allSteps_congr_of_forall (hiff : ∀ a ∈ as, ∀ s, P s a ↔ Q s a) (s : σ) :
    AllSteps step P s as ↔ AllSteps step Q s as := by
  induction as generalizing s with
  | nil => exact Iff.rfl
  | cons a as ih =>
    exact and_congr (hiff a List.mem_cons_self s)
      (ih (fun b hb => hiff b (List.mem_cons_of_mem a hb)) (step s a))

end Jerboa.Lib.Run
