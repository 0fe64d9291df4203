import Mathlib.Logic.Basic

/-! # Runs of labelled steps

A run takes one labelled step after another. A run under a condition takes only
steps whose label meets it in the state before the step. What every step keeps,
every run keeps.
-/

namespace Libdap

variable {σ ι : Type}

/-- The states and labels of a run, from the first state to the last. -/
inductive Run (step : σ → ι → σ → Prop) : σ → List ι → σ → Prop where
  | nil (s : σ) : Run step s [] s
  | cons {s t u : σ} {i : ι} {is : List ι} : step s i t → Run step t is u → Run step s (i :: is) u

/-- The steps whose label meets a condition. -/
def Under (condition : σ → ι → Prop) (step : σ → ι → σ → Prop) (s : σ) (i : ι) (t : σ) : Prop :=
  condition s i ∧ step s i t

namespace Run

variable {step step' : σ → ι → σ → Prop} {s t u : σ} {i : ι} {is js : List ι}

theorem keeps {Inv : σ → Prop} (kept : ∀ {s i t}, Inv s → step s i t → Inv t) (run : Run step s is t) (start : Inv s) :
    Inv t := by
  induction run with
  | nil s => exact start
  | cons first _ ih => exact ih (kept start first)

theorem append (run : Run step s is t) (rest : Run step t js u) : Run step s (is ++ js) u := by
  induction run with
  | nil s => exact rest
  | cons first _ ih => exact cons first (ih rest)

theorem single (taken : step s i t) : Run step s [i] t := cons taken (nil t)

end Run

end Libdap
