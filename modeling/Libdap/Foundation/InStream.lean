import Mathlib.Data.List.Basic

/-! # Input streams

An input stream holds the elements not read yet. A read takes as many elements
as it asks for; when fewer are left it takes those and the stream is at its end.
The end is noticed by the read that comes up short, not by the one that takes
the last element, and a stream at its end delivers nothing more.
-/

namespace Libdap

structure InStream (α : Type) where
  rest : List α
  eof : Bool
  deriving Repr, DecidableEq

namespace InStream

variable {α : Type}

/-- A stream at its first element. -/
def open_ (input : List α) : InStream α := ⟨input, false⟩

/-- Take `n` elements, or what is left when that is less. -/
def read (s : InStream α) (n : Nat) : List α × InStream α :=
  if s.eof then ([], s) else (s.rest.take n, ⟨s.rest.drop n, decide (s.rest.length < n)⟩)

theorem read_append {xs ys : List α} :
    (InStream.mk (xs ++ ys) false).read xs.length = (xs, ⟨ys, false⟩) := by
  simp [read]

theorem read_of_append {s : InStream α} {xs ys : List α} {n : Nat}
    (good : s.eof = false) (rest : s.rest = xs ++ ys) (len : xs.length = n) :
    s.read n = (xs, ⟨ys, false⟩) := by
  subst len
  obtain ⟨_, _⟩ := s
  cases good
  cases rest
  exact read_append

theorem read_of_le {s : InStream α} {n : Nat} (good : s.eof = false) (enough : n ≤ s.rest.length) :
    s.read n = (s.rest.take n, ⟨s.rest.drop n, false⟩) := by
  simp [read, good, enough]

theorem read_short {s : InStream α} {n : Nat} (good : s.eof = false) (short : s.rest.length < n) :
    s.read n = (s.rest, ⟨[], true⟩) := by
  simp [read, good, short, List.take_of_length_le (Nat.le_of_lt short),
    List.drop_of_length_le (Nat.le_of_lt short)]

theorem read_at_eof {s : InStream α} {n : Nat} (ended : s.eof = true) : s.read n = ([], s) := by
  simp [read, ended]

/-- A read that leaves the stream good took exactly what it asked for. -/
theorem length_of_read_good {s : InStream α} {n : Nat} (good : (s.read n).2.eof = false) :
    s.rest.length = (s.read n).2.rest.length + n := by
  unfold read at good ⊢
  split at good
  · rename_i ended
    simp [ended] at good
  · simp only [decide_eq_false_iff_not, Nat.not_lt] at good
    simp [*]

theorem length_read_le (s : InStream α) (n : Nat) : (s.read n).2.rest.length ≤ s.rest.length := by
  unfold read
  split <;> simp

end InStream

end Libdap
