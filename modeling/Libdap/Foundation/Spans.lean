import Mathlib.Data.Nat.Find
import Mathlib.Order.Monotone.Basic

/-! # Spans end to end

Spans of given lengths follow one another from 0 on. Each point is in one of them.
-/

namespace Libdap.Spans

variable {length : Nat → Nat}

/-- Where a span starts. -/
def start (length : Nat → Nat) : Nat → Nat
  | 0 => 0
  | i + 1 => start length i + length i

/-- The span of a point. -/
def place (length : Nat → Nat) (n : Nat) : Nat := Nat.findGreatest (fun i => start length i ≤ n) n

/-- How far a point is behind the start of its span. -/
def offset (length : Nat → Nat) (n : Nat) : Nat := n - start length (place length n)

theorem start_place_le (length : Nat → Nat) (n : Nat) : start length (place length n) ≤ n := by
  have zero : start length 0 ≤ n := Nat.zero_le n
  exact Nat.findGreatest_spec (P := fun i => start length i ≤ n) (Nat.zero_le n) zero

theorem start_add_offset (length : Nat → Nat) (n : Nat) : start length (place length n) + offset length n = n :=
  Nat.add_sub_cancel' (start_place_le length n)

theorem start_mono (length : Nat → Nat) : Monotone (start length) :=
  monotone_nat_of_le_succ fun i => Nat.le_add_right (start length i) (length i)

theorem le_start (filled : ∀ i, 0 < length i) (i : Nat) : i ≤ start length i := by
  induction i with
  | zero => exact Nat.zero_le _
  | succ i ih =>
      have more := filled i
      rw [start]
      omega

theorem place_lt_iff (filled : ∀ i, 0 < length i) {n k : Nat} : place length n < k ↔ n < start length k := by
  constructor
  · intro before
    by_contra behind
    have starts : start length k ≤ n := Nat.not_lt.mp behind
    have inside : k ≤ n := (le_start filled k).trans starts
    exact Nat.findGreatest_is_greatest (P := fun i => start length i ≤ n) before inside starts
  · intro before
    by_contra behind
    have later := start_mono length (Nat.not_lt.mp behind)
    have starts := start_place_le length n
    omega

theorem offset_lt (filled : ∀ i, 0 < length i) (n : Nat) : offset length n < length (place length n) := by
  have before : n < start length (place length n + 1) := (place_lt_iff filled).mp (Nat.lt_succ_self _)
  rw [start] at before
  have whole := start_add_offset length n
  omega

end Libdap.Spans
