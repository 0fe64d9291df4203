import Mathlib.Tactic.Common

/-! # Loops

A loop takes turns as long as there is one to take. One whose turns make something smaller comes to
an end, so that it is a function.
-/

namespace Libdap

variable {σ : Type}

/-- The state in which the loop ends, if it takes fewer turns than this. -/
def loop (turn : σ → Option σ) : Nat → σ → Option σ
  | 0, _ => none
  | n + 1, s =>
    match turn s with
    | none => some s
    | some s' => loop turn n s'

section

variable {turn : σ → Option σ} {s s' t : σ} {n m : Nat}

theorem loop_of_none (last : turn s = none) (n : Nat) : loop turn (n + 1) s = some s := by
  rw [loop, last]

theorem loop_of_some (next : turn s = some s') (n : Nat) : loop turn (n + 1) s = loop turn n s' := by
  rw [loop, next]

/-- Where a loop ends there is no turn to take. -/
theorem turn_of_loop (ends : loop turn n s = some t) : turn t = none := by
  fun_induction loop turn n s with
  | case1 => cases ends
  | case2 n s last =>
      cases ends
      exact last
  | case3 n s s' next ih => exact ih ends

/-- What every turn keeps holds where the loop ends. -/
theorem loop_invariant {P : σ → Prop} (keeps : ∀ s s', P s → turn s = some s' → P s') (start : P s)
    (ends : loop turn n s = some t) : P t := by
  fun_induction loop turn n s with
  | case1 => cases ends
  | case2 n s last =>
      cases ends
      exact start
  | case3 n s s' next ih => exact ih (keeps s s' start next) ends

/-- A loop that can always take another turn does not end. -/
theorem loop_ne_some {P : σ → Prop} (more : ∀ s, P s → ∃ s', turn s = some s' ∧ P s') (start : P s) :
    loop turn n s ≠ some t := by
  intro ends
  have last := turn_of_loop ends
  have holds : P t := by
    apply loop_invariant _ start ends
    intro s s' here next
    obtain ⟨s'', next', there⟩ := more s here
    rw [next] at next'
    cases next'
    exact there
  obtain ⟨t', next, -⟩ := more t holds
  rw [last] at next
  cases next

/-- A loop whose turns make something smaller ends. -/
theorem loop_of_smaller {P : σ → Prop} {size : σ → Nat} (start : P s)
    (smaller : ∀ s s', P s → turn s = some s' → P s' ∧ size s' < size s) (enough : size s < n) :
    ∃ t, loop turn n s = some t := by
  induction n generalizing s with
  | zero => exact absurd enough (Nat.not_lt_zero _)
  | succ n ih =>
      cases next : turn s with
      | none => exact ⟨s, loop_of_none next n⟩
      | some s' =>
          obtain ⟨there, less⟩ := smaller s s' start next
          rw [loop_of_some next]
          exact ih there (by omega)

end

/-- A loop that ends from wherever it starts. -/
structure Loop (σ : Type) where
  turn : σ → Option σ
  size : σ → Nat
  smaller : ∀ s s', turn s = some s' → size s' < size s

namespace Loop

variable {l : Loop σ} {s s' : σ}

/-- As many turns as there can be. -/
def go (l : Loop σ) : Nat → σ → σ
  | 0, s => s
  | n + 1, s =>
    match l.turn s with
    | none => s
    | some s' => l.go n s'

def run (l : Loop σ) (s : σ) : σ := l.go (l.size s) s

theorem go_of_none (last : l.turn s = none) (n : Nat) : l.go n s = s := by
  cases n with
  | zero => rfl
  | succ n => rw [go, last]

theorem go_congr {n m : Nat} (enough : l.size s ≤ n) (enough' : l.size s ≤ m) : l.go n s = l.go m s := by
  induction n generalizing s m with
  | zero =>
      cases next : l.turn s with
      | none => rw [go_of_none next, go_of_none next]
      | some s' =>
          have less := l.smaller s s' next
          omega
  | succ n ih =>
      cases next : l.turn s with
      | none => rw [go_of_none next, go_of_none next]
      | some s' =>
          have less := l.smaller s s' next
          obtain ⟨k, rfl⟩ : ∃ k, m = k + 1 := ⟨m - 1, by omega⟩
          rw [go, go, next]
          exact ih (by omega) (by omega)

theorem run_of_none (last : l.turn s = none) : l.run s = s := go_of_none last _

theorem run_of_some (next : l.turn s = some s') : l.run s = l.run s' := by
  have less := l.smaller s s' next
  rw [run, run, go_congr (Nat.le_refl _) (Nat.le_succ _), go, next]
  exact go_congr (by omega) (Nat.le_refl _)

/-- What holds where the loop ends, and before a turn if it holds after it, holds everywhere. -/
theorem induction {P : σ → Prop} (last : ∀ s, l.turn s = none → P s)
    (more : ∀ s s', l.turn s = some s' → P s' → P s) (s : σ) : P s := by
  induction size : l.size s using Nat.strongRecOn generalizing s with
  | ind n ih =>
      cases next : l.turn s with
      | none => exact last s next
      | some s' =>
          have less := l.smaller s s' next
          exact more s s' next (ih _ (size ▸ less) s' rfl)

/-- Where the loop ends there is no turn to take. -/
theorem turn_run (l : Loop σ) (s : σ) : l.turn (l.run s) = none := by
  induction s using induction (l := l) with
  | last s last => rw [run_of_none last, last]
  | more s s' next ih => rw [run_of_some next, ih]

/-- A change of the state that the turns do not see is one of the result. -/
theorem run_comm {g : σ → σ} (same : ∀ s, l.turn (g s) = (l.turn s).map g) (s : σ) : l.run (g s) = g (l.run s) := by
  induction s using induction (l := l) with
  | last s last => rw [run_of_none last, run_of_none (by rw [same, last, Option.map_none])]
  | more s s' next ih => rw [run_of_some next, run_of_some (by rw [same, next, Option.map_some]), ih]

end Loop

end Libdap
