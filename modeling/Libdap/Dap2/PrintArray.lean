import Mathlib.Algebra.BigOperators.Group.List.Basic
import Mathlib.Data.List.Range
import Mathlib.Data.UInt
import Mathlib.Tactic.Ring

/-! # The values of an array in brackets

`print_array` walks over the dimensions and threads an index through. The index is an `unsigned int`. The brackets
that it writes stand around the rows, the planes and so on of the elements in row-major order.
-/

namespace Libdap.Dap2.PrintArray

/-- What is written: a text, or what an element has for its value. -/
inductive Piece where
  | text (s : String)
  | element (index : UInt32)
  deriving Repr, DecidableEq

abbrev Out := List Piece

/-- One round of a loop: an item, and what stands behind it. -/
def round (item : UInt32 → Out → UInt32 × Out) (separator : String) (state : UInt32 × Out) : UInt32 × Out :=
  let (index, out) := item state.1 state.2
  (index, out ++ [.text separator])

/-- The items of a dimension, of which the last is written behind the loop. -/
def brackets (item : UInt32 → Out → UInt32 × Out) (separator : String) (shape₀ : Nat) (index : UInt32) (out : Out) :
    UInt32 × Out :=
  let out := out ++ [.text "\x7b"]
  let (index, out) :=
    if 1 ≤ shape₀ then
      let (index, out) := (round item separator)^[shape₀ - 1] (index, out)
      item index out
    else (index, out)
  (index, out ++ [.text "\x7d"])

def print_element (index : UInt32) (out : Out) : UInt32 × Out := (index + 1, out ++ [.element index])

/-- The first extent of the shape, and the others. -/
def print_array : Nat → List Nat → UInt32 → Out → UInt32 × Out
  | shape₀, [] => brackets print_element ", " shape₀
  | shape₀, shape₁ :: shape => brackets (print_array shape₁ shape) "," shape₀

/-! ## Rows and planes -/

/-- How many elements there are. -/
def product (shape : List Nat) : Nat := shape.prod

/-- The elements from a place on as they are grouped by a shape. -/
def grouped : List Nat → UInt32 → Out
  | [], start => [.element start]
  | n :: shape, start =>
    [.text "\x7b"] ++ List.intercalate [.text (if shape = [] then ", " else ",")]
      ((List.range n).map fun k => grouped shape (start + .ofNat (k * product shape))) ++ [.text "\x7d"]

/-- The elements in the order in which they are written. -/
def visited (out : Out) : List UInt32 :=
  out.filterMap fun piece =>
    match piece with
    | .text _ => none
    | .element index => some index

section

variable {item : UInt32 → Out → UInt32 × Out} {step : Nat} {written : UInt32 → Out}

/-- All items but the last, each with what stands behind it. -/
theorem intercalate_range (separator : Out) (f : Nat → Out) (n : Nat) :
    List.intercalate separator ((List.range (n + 1)).map f) =
      (List.range n).flatMap (fun k => f k ++ separator) ++ f n := by
  induction n generalizing f with
  | zero => simp
  | succ n ih =>
      have others := ih (fun k => f (k + 1))
      have rest : (List.range (n + 1)).map (fun k => f (k + 1)) ≠ [] := by simp
      have before : (List.range (n + 1)).flatMap (fun k => f k ++ separator) =
          f 0 ++ separator ++ (List.range n).flatMap fun k => f (k + 1) ++ separator := by
        rw [List.range_succ_eq_map, List.flatMap_cons, List.flatMap_map]
      rw [List.range_succ_eq_map, List.map_cons, List.map_map]
      change List.intercalate separator (f 0 :: (List.range (n + 1)).map fun k => f (k + 1)) = _
      rw [List.intercalate_cons_of_ne_nil rest, others, before]
      simp only [List.append_assoc]

/-- A step of an index, and then steps more. -/
theorem further (index : UInt32) (a b : Nat) : index + .ofNat a + .ofNat b = index + .ofNat (a + b) := by
  rw [UInt32.add_assoc, ← UInt32.ofNat_add]

theorem rounds (separator : String) (items : ∀ index out, item index out = (index + .ofNat step, out ++ written index))
    (n : Nat) (index : UInt32) (out : Out) : (round item separator)^[n] (index, out) =
      (index + .ofNat (n * step),
        out ++ (List.range n).flatMap fun k => written (index + .ofNat (k * step)) ++ [.text separator]) := by
  induction n with
  | zero => simp
  | succ n ih =>
      rw [Function.iterate_succ_apply', ih, round]
      simp only [items, further, List.range_succ, List.flatMap_append, List.flatMap_singleton, List.append_assoc,
        Nat.succ_mul]

/-- A pair of brackets around the items of a dimension. -/
theorem brackets_eq (separator : String)
    (items : ∀ index out, item index out = (index + .ofNat step, out ++ written index)) (shape₀ : Nat)
    (index : UInt32) (out : Out) : brackets item separator shape₀ index out =
      (index + .ofNat (shape₀ * step),
        out ++ ([.text "\x7b"] ++ List.intercalate [.text separator]
          ((List.range shape₀).map fun k => written (index + .ofNat (k * step))) ++ [.text "\x7d"])) := by
  cases shape₀ with
  | zero => simp [brackets]
  | succ n =>
      have loop := rounds separator items n
      simp only [brackets, Nat.le_add_left, if_true, Nat.add_sub_cancel, loop, items, further, intercalate_range,
        Nat.succ_mul, List.append_assoc]

end

/-- The brackets group the rows, the planes and so on, and the index has passed all elements. -/
theorem print_array_eq (shape₀ : Nat) (shape : List Nat) (index : UInt32) (out : Out) :
    print_array shape₀ shape index out =
      (index + .ofNat (product (shape₀ :: shape)), out ++ grouped (shape₀ :: shape) index) := by
  induction shape generalizing shape₀ index out with
  | nil =>
      have items : ∀ index out, print_element index out = (index + .ofNat 1, out ++ grouped [] index) := by
        intro index out
        rfl
      rw [print_array, brackets_eq ", " items]
      simp [product, grouped]
  | cons shape₁ shape ih =>
      rw [print_array, brackets_eq "," (ih shape₁)]
      simp [product, grouped]

theorem visited_append (out out' : Out) : visited (out ++ out') = visited out ++ visited out' :=
  List.filterMap_append

/-- What separates the items is no element. -/
theorem visited_intercalate (separator : String) (items : List Out) :
    visited (List.intercalate [.text separator] items) = items.flatMap visited := by
  induction items with
  | nil => rfl
  | cons item items ih =>
      by_cases last : items = []
      · simp [last]
      · rw [List.intercalate_cons_of_ne_nil last, visited_append, visited_append, ih, List.flatMap_cons]
        simp [visited]

/-- The places of as many rows, one behind the other. -/
theorem rows (start : UInt32) (n size : Nat) :
    ((List.range n).flatMap fun k => (List.range size).map fun j => start + .ofNat (k * size) + .ofNat j) =
      (List.range (n * size)).map fun k => start + .ofNat k := by
  induction n with
  | zero => simp
  | succ n ih =>
      rw [List.range_succ, List.flatMap_append, ih, Nat.succ_mul, List.range_add, List.map_append, List.map_map]
      simp only [List.flatMap_singleton, further]
      rfl

/-- A group has the elements from its place on, one behind the other. -/
theorem visited_grouped (shape : List Nat) (start : UInt32) :
    visited (grouped shape start) = (List.range (product shape)).map fun k => start + .ofNat k := by
  induction shape generalizing start with
  | nil => simp [visited, grouped, product]
  | cons n shape ih =>
      have opened : visited [.text "\x7b"] = [] := rfl
      have closed : visited [.text "\x7d"] = [] := rfl
      rw [grouped, visited_append, visited_append, visited_intercalate, opened, closed, List.flatMap_map]
      simp only [ih, List.nil_append, List.append_nil]
      exact rows start n (product shape)

theorem toNat_place {start : UInt32} {k : Nat} (room : start.toNat + k < 2 ^ 32) :
    (start + UInt32.ofNat k).toNat = start.toNat + k := by
  rw [UInt32.toNat_add, UInt32.toNat_ofNat']
  omega

/-- Up to the end of the range of `unsigned int` the places have the numbers from the start on. -/
theorem toNat_places {start : UInt32} {size : Nat} (room : start.toNat + size ≤ 2 ^ 32) :
    ((List.range size).map fun k => start + UInt32.ofNat k).map UInt32.toNat = List.range' start.toNat size := by
  rw [List.range'_eq_map_range, List.map_map]
  apply List.map_congr_left
  intro k h
  have below := List.mem_range.mp h
  exact toNat_place (by omega)

/-- `print_array` writes the row-major groups of the shape, which hold one element after the other, and the index goes
on by their number. Both count as an `unsigned int` does. -/
theorem print_array_row_major (shape₀ : Nat) (shape : List Nat) (start : UInt32) (out : Out) :
    print_array shape₀ shape start out =
        (start + .ofNat (product (shape₀ :: shape)), out ++ grouped (shape₀ :: shape) start) ∧
      visited (grouped (shape₀ :: shape) start) =
        (List.range (product (shape₀ :: shape))).map (fun k => start + .ofNat k) ∧
      (start.toNat + product (shape₀ :: shape) ≤ 2 ^ 32 →
        (visited (grouped (shape₀ :: shape) start)).map UInt32.toNat =
          List.range' start.toNat (product (shape₀ :: shape))) ∧
      (start.toNat + product (shape₀ :: shape) < 2 ^ 32 →
        (print_array shape₀ shape start out).1.toNat = start.toNat + product (shape₀ :: shape)) := by
  have printed := print_array_eq shape₀ shape start out
  have elements := visited_grouped (shape₀ :: shape) start
  refine ⟨printed, elements, ?_, ?_⟩
  · intro room
    rw [elements]
    exact toNat_places room
  · intro room
    rw [printed]
    exact toNat_place room

/-- Two planes of one row of two elements each. -/
theorem print_array_two_planes : (print_array 2 [1, 2] 5 []).1.toNat = 9 ∧
    (visited (grouped [2, 1, 2] 5)).map UInt32.toNat = [5, 6, 7, 8] :=
  have printed := print_array_row_major 2 [1, 2] 5 []
  ⟨printed.2.2.2 (by decide), printed.2.2.1 (by decide)⟩

/-- Behind the last index of the range comes the first. -/
theorem print_array_wraps : (print_array 1 [] 4294967295 []).1.toNat ≠ 4294967295 + product [1] := by
  decide

end Libdap.Dap2.PrintArray
