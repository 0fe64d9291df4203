import Mathlib.Data.List.Basic

/-! # Machines that answer every item

A machine reads one item after the other, answers each and keeps a state. Two machines side by side answer
pairs, each as if it were alone.
-/

namespace Libdap.Mealy

variable {σ τ α β γ δ : Type}

/-- The state after the last item, and the answers. -/
def run (step : σ → α → σ × β) (s : σ) : List α → σ × List β
  | [] => (s, [])
  | a :: as => ((run step (step s a).1 as).1, (step s a).2 :: (run step (step s a).1 as).2)

variable {step : σ → α → σ × β} {s : σ} {as : List α}

@[simp]
theorem run_nil : run step s [] = (s, []) := rfl

theorem run_cons {a : α} {s' : σ} {b : β} (first : step s a = (s', b)) :
    run step s (a :: as) = ((run step s' as).1, b :: (run step s' as).2) := by
  rw [run, first]

@[simp]
theorem length_run : (run step s as).2.length = as.length := by
  induction as generalizing s with
  | nil => rfl
  | cons a as ih => rw [run, List.length_cons, List.length_cons, ih]

/-- A machine that looks at each item through a function. -/
theorem run_map (step : σ → β → σ × γ) (f : α → β) (s : σ) (as : List α) :
    run (fun s a => step s (f a)) s as = run step s (as.map f) := by
  induction as generalizing s with
  | nil => rfl
  | cons a as ih => rw [run, ih, List.map_cons, run]

/-- A machine whose state stays what it is. -/
theorem run_stays {f : α → β} (stays : ∀ a, step s a = (s, f a)) (as : List α) : run step s as = (s, as.map f) := by
  induction as with
  | nil => rfl
  | cons a as ih => rw [run_cons (stays a), ih, List.map_cons]

/-- What every step keeps of the state and gives to its answer. -/
theorem run_keeps {Inv : σ → Prop} {P : β → Prop} (each : ∀ s a, Inv s → Inv (step s a).1 ∧ P (step s a).2) (start : Inv s)
    (as : List α) : Inv (run step s as).1 ∧ ∀ b ∈ (run step s as).2, P b := by
  induction as generalizing s with
  | nil => exact ⟨start, fun _ mem => absurd mem List.not_mem_nil⟩
  | cons a as ih =>
      obtain ⟨kept, answer⟩ := each s a start
      obtain ⟨last, answers⟩ := ih kept
      exact ⟨last, List.forall_mem_cons.mpr ⟨answer, answers⟩⟩

/-- Two machines, each with its part of the state and of every item. -/
def pair (f : σ → α → σ × β) (g : τ → γ → τ × δ) (s : σ × τ) (a : α × γ) : (σ × τ) × (β × δ) :=
  (((f s.1 a.1).1, (g s.2 a.2).1), ((f s.1 a.1).2, (g s.2 a.2).2))

theorem run_pair (f : σ → α → σ × β) (g : τ → γ → τ × δ) (s : σ) (t : τ) (as : List (α × γ)) :
    run (pair f g) (s, t) as =
      (((run f s (as.map Prod.fst)).1, (run g t (as.map Prod.snd)).1),
        (run f s (as.map Prod.fst)).2.zip (run g t (as.map Prod.snd)).2) := by
  induction as generalizing s t with
  | nil => rfl
  | cons a as ih => rw [run, pair, ih, List.map_cons, List.map_cons, run, run, List.zip_cons_cons]

/-- A machine of pairs that answers what another one of pairs has answered. -/
theorem run_pair_run_pair {σ' τ' ε ζ : Type} (f : σ → α → σ × β) (g : τ → γ → τ × δ) (f' : σ' → β → σ' × ε)
    (g' : τ' → δ → τ' × ζ) (s : σ) (t : τ) (s' : σ') (t' : τ') (as : List (α × γ)) :
    (run (pair f' g') (s', t') (run (pair f g) (s, t) as).2).2 =
      (run f' s' (run f s (as.map Prod.fst)).2).2.zip (run g' t' (run g t (as.map Prod.snd)).2).2 := by
  rw [run_pair, run_pair, List.map_fst_zip (by simp), List.map_snd_zip (by simp)]

/-- A machine beside a part of the state and of the items that it leaves alone. -/
def behind (g : τ → γ → τ × δ) (s : σ × τ) (a : α × γ) : (σ × τ) × δ := ((s.1, (g s.2 a.2).1), (g s.2 a.2).2)

theorem run_behind (g : τ → γ → τ × δ) (s : σ) (t : τ) (as : List (α × γ)) :
    run (behind g) (s, t) as = ((s, (run g t (as.map Prod.snd)).1), (run g t (as.map Prod.snd)).2) := by
  induction as generalizing t with
  | nil => rfl
  | cons a as ih => rw [run, behind, ih, List.map_cons, run]

end Libdap.Mealy
