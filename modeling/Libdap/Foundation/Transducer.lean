import Mathlib.Data.List.Basic

/-! # Transducers

A machine that reads items from the first to the last, writes some for each, and may have some
left to write at the end.
-/

namespace Libdap

structure Transducer (σ α β : Type) where
  step : σ → α → List β × σ
  finish : σ → List β

namespace Transducer

variable {σ α β : Type} (t : Transducer σ α β)

def run (s : σ) : List α → List β × σ
  | [] => ([], s)
  | x :: xs => ((t.step s x).1 ++ (run (t.step s x).2 xs).1, (run (t.step s x).2 xs).2)

def output (s : σ) (xs : List α) : List β := (t.run s xs).1 ++ t.finish (t.run s xs).2

/-- From one state to another it reads the one list and writes the other. -/
def Reads (s : σ) (xs : List α) (ys : List β) (s' : σ) : Prop := t.run s xs = (ys, s')

variable {t} {s s₁ s₂ : σ} {xs xs' : List α} {ys ys' : List β}

theorem Reads.nil (t : Transducer σ α β) (s : σ) : t.Reads s [] [] s := rfl

theorem Reads.cons {x : α} (step : t.step s x = (ys, s₁)) (rest : t.Reads s₁ xs ys' s₂) : t.Reads s (x :: xs) (ys ++ ys') s₂ := by
  rw [Reads] at rest
  rw [Reads, run, step, rest]

theorem Reads.append (first : t.Reads s xs ys s₁) (rest : t.Reads s₁ xs' ys' s₂) : t.Reads s (xs ++ xs') (ys ++ ys') s₂ := by
  induction xs generalizing s ys with
  | nil =>
      obtain ⟨rfl, rfl⟩ := Prod.mk.inj first
      exact rest
  | cons x xs ih =>
      obtain ⟨rfl, rfl⟩ := Prod.mk.inj first
      rw [List.cons_append, List.append_assoc]
      exact .cons rfl (ih rfl)

theorem Reads.output_eq (reads : t.Reads s xs ys s₁) : t.output s xs = ys ++ t.finish s₁ := by
  rw [output, reads]

end Transducer

end Libdap
