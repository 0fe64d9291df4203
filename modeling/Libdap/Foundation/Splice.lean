import Mathlib.Data.List.Basic
import Mathlib.Tactic.Common

/-! # Writing over a part of a list

What stands in a list from some place on is replaced. Writes that follow each other are one
write, and nothing changes outside of the place of a write.
-/

namespace Libdap

variable {α : Type}

def splice (l : List α) (start : Nat) (xs : List α) : List α := l.take start ++ xs ++ l.drop (start + xs.length)

@[simp]
theorem splice_nil (l : List α) (start : Nat) : splice l start [] = l := by
  rw [splice, List.append_nil, List.length_nil, Nat.add_zero, List.take_append_drop]

section

variable {l xs : List α} {start : Nat} (fits : start + xs.length ≤ l.length)

include fits

theorem length_splice : (splice l start xs).length = l.length := by
  simp only [splice, List.length_append, List.length_take, List.length_drop]
  omega

theorem take_splice : (splice l start xs).take (start + xs.length) = l.take start ++ xs := by
  have here : (l.take start ++ xs).length = start + xs.length := by
    rw [List.length_append, List.length_take]
    omega
  rw [splice, ← here, List.take_left]

theorem drop_splice : (splice l start xs).drop (start + xs.length) = l.drop (start + xs.length) := by
  have here : (l.take start ++ xs).length = start + xs.length := by
    rw [List.length_append, List.length_take]
    omega
  nth_rewrite 1 [← here]
  rw [splice, List.drop_left]

theorem getElem?_splice_before {i : Nat} (before : i < start) : (splice l start xs)[i]? = l[i]? := by
  rw [splice, List.append_assoc, List.getElem?_append_left (by rw [List.length_take]; omega),
    List.getElem?_take_of_lt before]

theorem getElem?_splice_behind {i : Nat} (behind : start + xs.length ≤ i) : (splice l start xs)[i]? = l[i]? := by
  obtain ⟨k, rfl⟩ := Nat.exists_eq_add_of_le behind
  rw [← List.getElem?_drop, drop_splice fits, List.getElem?_drop]

theorem getElem?_splice_inside {k : Nat} (inside : k < xs.length) : (splice l start xs)[start + k]? = xs[k]? := by
  have place : (l.take start).length = start := by
    rw [List.length_take]
    omega
  rw [splice, List.append_assoc, List.getElem?_append_right (by omega), place, Nat.add_sub_cancel_left,
    List.getElem?_append_left inside]

theorem splice_splice (ys : List α) :
    splice (splice l start xs) (start + xs.length) ys = splice l start (xs ++ ys) := by
  have rest : (splice l start xs).drop (start + xs.length + ys.length) = l.drop (start + xs.length + ys.length) := by
    rw [← List.drop_drop, drop_splice fits, List.drop_drop]
  rw [splice, take_splice fits, rest, splice, List.length_append, Nat.add_assoc]
  simp only [List.append_assoc]

end

theorem set_eq_splice {l : List α} {i : Nat} (fits : i < l.length) (x : α) : l.set i x = splice l i [x] := by
  rw [splice, List.set_eq_take_append_cons_drop, if_pos fits, List.append_assoc]
  rfl

end Libdap
