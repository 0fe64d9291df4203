import Libdap.Foundation.Ints
import Mathlib.Data.Set.Card
import Mathlib.Algebra.BigOperators.Group.List.Basic
import Mathlib.Algebra.Order.Ring.Int

/-! # Array dimensions and their constraints

An `Array` is a list of dimensions, each with the part of it that is selected,
and the length the `Vector` base has been told. The operations that change the
shape or a constraint keep the dimensions and the length consistent as long as
what `add_constraint` lets through starts inside the dimension and not behind
its stop, and the two operations that do not compute the length are used where
it is right without.
-/

namespace Libdap.Dap2

open Ints

structure Dimension where
  size : Int
  start : Int
  stop : Int
  stride : Int
  cSize : Int
  deriving Repr, DecidableEq

/-- A shared dimension, which has its own constraint. -/
structure D4Dimension where
  size : Nat
  constrained : Bool
  cStart : Nat
  cStride : Nat
  cStop : Nat
  deriving Repr, DecidableEq

structure Array where
  shape : List Dimension
  length : Int
  sendP : Bool
  deriving Repr, DecidableEq

namespace Dimension

def ofSize (size : Int) : Dimension :=
  { size, start := 0, stop := i32 (size - 1), stride := 1, cSize := size }

def ofD4 (dim : D4Dimension) : Dimension := ofSize (i32 dim.size)

def reset (d : Dimension) : Dimension :=
  { d with start := 0, stop := i32 (d.size - 1), stride := 1, cSize := d.size }

/-- A stop of -1 stands for the last element. -/
def lastIndex (d : Dimension) (stop : Int) : Int := if stop = -1 then i32 (d.size - 1) else stop

/-- `(stop - start) / stride + 1` in `int` arithmetic. -/
def count (start stride stop : Int) : Int := i32 ((i32 (stop - start)).tdiv stride + 1)

/-- The two tests of `add_constraint`. -/
def Refuses (d : Dimension) (start stride stop : Int) : Prop :=
  (start ≥ d.size ∨ stop ≥ d.size ∨ stride > d.size ∨ stride ≤ 0) ∨ count start stride stop > d.size

instance (d : Dimension) (start stride stop : Int) : Decidable (d.Refuses start stride stop) :=
  inferInstanceAs (Decidable (_ ∨ _))

def constrain (d : Dimension) (start stride stop : Int) : Dimension :=
  { d with start, stop, stride, cSize := count start stride stop }

end Dimension

def array_sss : String :=
  "Invalid constraint parameters: At least one of the start, stride or stop \nspecified do not match the array variable."

namespace Array

/-- A new array has no dimensions, and no length yet. -/
def create : Array := ⟨[], -1, false⟩

/-- The running product of `update_length`. -/
def product (shape : List Dimension) : Int := shape.foldl (fun length d => i32 (length * d.cSize)) 1

def updateLength (a : Array) : Array := { a with length := product a.shape }

def appendDim (a : Array) (size : Int) : Array :=
  updateLength { a with shape := a.shape ++ [.ofSize size] }

def appendD4Dim (a : Array) (dim : D4Dimension) : Array :=
  updateLength { a with shape := a.shape ++ [.ofD4 dim] }

def prependDim (a : Array) (size : Int) : Array :=
  updateLength { a with shape := .ofSize size :: a.shape }

def prependD4Dim (a : Array) (dim : D4Dimension) : Array :=
  updateLength { a with shape := .ofD4 dim :: a.shape }

def clearAllDims (a : Array) : Array := { a with shape := [] }

/-- The loop of `reset_constraint`, with the dimensions it has passed in `done`. -/
def resetFrom (a : Array) (done : List Dimension) : List Dimension → Array
  | [] => { a with shape := done }
  | d :: todo =>
    let done := done ++ [d.reset]
    resetFrom (updateLength { a with shape := done ++ todo }) done todo

def resetConstraint (a : Array) : Array := resetFrom { a with length := -1 } [] a.shape

/-- The iterator is the index `i` of a dimension. -/
def addConstraint (a : Array) (i : Nat) (start stride stop : Int) : Except String Array :=
  match a.shape[i]? with
  | none => throw "not an iterator of this array"
  | some d =>
    let stop := d.lastIndex stop
    if d.Refuses start stride stop then throw array_sss
    else pure (updateLength { a with shape := a.shape.set i (d.constrain start stride stop) })

def addD4Constraint (a : Array) (i : Nat) (dim : D4Dimension) : Except String Array :=
  if dim.constrained then a.addConstraint i (i32 dim.cStart) (i32 dim.cStride) (i32 dim.cStop)
  else pure a

end Array

/-- What changes the shape of an array or selects a part of it. -/
inductive Mutation where
  | appendDim (size : Int)
  | appendD4Dim (dim : D4Dimension)
  | prependDim (size : Int)
  | prependD4Dim (dim : D4Dimension)
  | clearAllDims
  | resetConstraint
  | addConstraint (i : Nat) (start stride stop : Int)
  | addD4Constraint (i : Nat) (dim : D4Dimension)
  deriving Repr, DecidableEq

/-- A constraint that is refused leaves the array as it was. -/
def Array.mutate (a : Array) : Mutation → Array
  | .appendDim size => a.appendDim size
  | .appendD4Dim dim => a.appendD4Dim dim
  | .prependDim size => a.prependDim size
  | .prependD4Dim dim => a.prependD4Dim dim
  | .clearAllDims => a.clearAllDims
  | .resetConstraint => a.resetConstraint
  | .addConstraint i start stride stop =>
    match a.addConstraint i start stride stop with | .ok b => b | .error _ => a
  | .addD4Constraint i dim => match a.addD4Constraint i dim with | .ok b => b | .error _ => a

namespace Dimension

/-- The selection lies inside the dimension and is not empty. -/
structure Valid (d : Dimension) : Prop where
  nonneg : 0 ≤ d.start
  ordered : d.start ≤ d.stop
  inside : d.stop < d.size
  step : 1 ≤ d.stride

/-- The indices a dimension selects. -/
def selected (d : Dimension) : Set Int := {k | ∃ n : Nat, k = d.start + n * d.stride ∧ k ≤ d.stop}

structure Consistent (d : Dimension) : Prop where
  valid : d.Valid
  counted : d.cSize = d.selected.ncard

theorem ncard_selected {d : Dimension} (ordered : d.start ≤ d.stop) (step : 1 ≤ d.stride) :
    (d.selected.ncard : Int) = (d.stop - d.start) / d.stride + 1 := by
  have quotient : 0 ≤ (d.stop - d.start) / d.stride := Int.ediv_nonneg (by omega) (by omega)
  obtain ⟨m, bound⟩ := Int.eq_ofNat_of_zero_le quotient
  have image : d.selected = (fun n : Nat => d.start + n * d.stride) '' (Finset.range (m + 1) : Set Nat) := by
    ext k
    simp only [selected, Set.mem_ofPred_eq, Set.mem_image, Finset.coe_range, Set.mem_Iio]
    have reach : ∀ n : Nat, d.start + n * d.stride ≤ d.stop ↔ n < m + 1 := by
      intro n
      rw [← Int.ofNat_lt, Nat.cast_add, ← bound, Nat.cast_one, Int.lt_add_one_iff,
        Int.le_ediv_iff_mul_le (by omega)]
      constructor <;> intro <;> omega
    constructor
    · rintro ⟨n, rfl, below⟩
      exact ⟨n, (reach n).mp below, rfl⟩
    · rintro ⟨n, small, rfl⟩
      exact ⟨n, rfl, (reach n).mpr small⟩
  have injective : Function.Injective (fun n : Nat => d.start + n * d.stride) := by
    intro n n' same
    have scaled : (n : Int) * d.stride = n' * d.stride := by simpa using same
    exact_mod_cast Int.eq_of_mul_eq_mul_right (by omega) scaled
  rw [image, Set.ncard_image_of_injective _ injective, Set.ncard_coe_finset, Finset.card_range, bound]
  rfl

theorem count_eq {start stride stop : Int} (nonneg : 0 ≤ start) (ordered : start ≤ stop)
    (fits : stop < 2 ^ 31 - 1) (step : 1 ≤ stride) :
    count start stride stop = (stop - start) / stride + 1 := by
  have small : (stop - start) / stride ≤ stop - start :=
    Int.ediv_le_self _ (by omega)
  have quotient : 0 ≤ (stop - start) / stride := Int.ediv_nonneg (by omega) (by omega)
  have difference : i32 (stop - start) = stop - start := i32_of_fits ⟨by omega, by omega⟩
  rw [count, difference, Int.tdiv_eq_ediv_of_nonneg (by omega), i32_of_fits ⟨by omega, by omega⟩]

theorem Consistent.cSize_bounds {d : Dimension} (h : d.Consistent) : 1 ≤ d.cSize ∧ d.cSize ≤ d.size := by
  have ordered := h.valid.ordered
  have nonneg := h.valid.nonneg
  have inside := h.valid.inside
  have small : (d.stop - d.start) / d.stride ≤ d.stop - d.start := Int.ediv_le_self _ (by omega)
  have quotient : 0 ≤ (d.stop - d.start) / d.stride :=
    Int.ediv_nonneg (by omega) (by have step := h.valid.step; omega)
  rw [h.counted, ncard_selected ordered h.valid.step]
  omega

theorem Consistent.size_pos {d : Dimension} (h : d.Consistent) : 1 ≤ d.size := by
  have bounds := h.cSize_bounds
  omega

theorem whole_consistent {d : Dimension} (pos : 1 ≤ d.size) (fits : d.size < 2 ^ 31)
    (start : d.start = 0) (stop : d.stop = i32 (d.size - 1)) (stride : d.stride = 1)
    (cSize : d.cSize = d.size) : d.Consistent := by
  rw [i32_of_fits ⟨by omega, by omega⟩] at stop
  have ordered : d.start ≤ d.stop := by omega
  have step : 1 ≤ d.stride := by omega
  refine ⟨⟨by omega, ordered, by omega, step⟩, ?_⟩
  rw [ncard_selected ordered step, start, stop, stride, cSize]
  omega

/-- A constraint that is let through is consistent exactly when it starts in the
    dimension and not behind its stop. -/
theorem constrain_consistent {d : Dimension} (fits : d.size < 2 ^ 31) {start stride stop : Int}
    (accepted : ¬ d.Refuses start stride stop) :
    (d.constrain start stride stop).Consistent ↔ 0 ≤ start ∧ start ≤ stop := by
  simp only [Refuses, not_or, not_le, ge_iff_le, gt_iff_lt, not_lt] at accepted
  obtain ⟨⟨-, below, -, step⟩, -⟩ := accepted
  constructor
  · intro h
    exact ⟨h.valid.nonneg, h.valid.ordered⟩
  · rintro ⟨nonneg, ordered⟩
    refine ⟨⟨nonneg, ordered, below, step⟩, ?_⟩
    have whole : count start stride stop = (stop - start) / stride + 1 :=
      count_eq nonneg ordered (by omega) step
    exact whole.trans (@ncard_selected (d.constrain start stride stop) ordered step).symm

end Dimension

namespace Array

def sizes (a : Array) : Int := (a.shape.map Dimension.size).prod

/-- Every dimension is consistent, and the length is the number of elements that
    are selected. -/
structure Good (a : Array) : Prop where
  consistent : ∀ d ∈ a.shape, d.Consistent
  counted : a.length = (a.shape.map Dimension.cSize).prod

theorem one_le_sizes {shape : List Dimension} (consistent : ∀ d ∈ shape, d.Consistent) :
    1 ≤ (shape.map Dimension.size).prod := by
  induction shape with
  | nil => simp
  | cons d ds ih =>
      have first := (consistent d (List.mem_cons_self ..)).size_pos
      have rest := ih (fun e mem => consistent e (List.mem_cons_of_mem d mem))
      rw [List.map_cons, List.prod_cons]
      exact one_le_mul_of_one_le_of_one_le first rest

theorem size_le_sizes {shape : List Dimension} (consistent : ∀ d ∈ shape, d.Consistent)
    {d : Dimension} (mem : d ∈ shape) : d.size ≤ (shape.map Dimension.size).prod := by
  induction shape with
  | nil => cases mem
  | cons e es ih =>
      have first := (consistent e (List.mem_cons_self ..)).size_pos
      have others : ∀ d ∈ es, d.Consistent := fun d mem => consistent d (List.mem_cons_of_mem e mem)
      have rest := one_le_sizes others
      rw [List.map_cons, List.prod_cons]
      rcases List.mem_cons.mp mem with rfl | mem
      · exact le_mul_of_one_le_right (by omega) rest
      · exact (ih others mem).trans (le_mul_of_one_le_left (by omega) first)

/-- The running product does not wrap on its way. -/
theorem product_from {shape : List Dimension} {acc : Int} (pos : 1 ≤ acc)
    (consistent : ∀ d ∈ shape, d.Consistent)
    (fits : acc * (shape.map Dimension.size).prod < 2 ^ 31) :
    shape.foldl (fun length d => i32 (length * d.cSize)) acc =
      acc * (shape.map Dimension.cSize).prod := by
  induction shape generalizing acc with
  | nil => simp
  | cons d ds ih =>
      have others : ∀ e ∈ ds, e.Consistent := fun e mem => consistent e (List.mem_cons_of_mem d mem)
      have rest := one_le_sizes others
      obtain ⟨one, most⟩ := (consistent d (List.mem_cons_self ..)).cSize_bounds
      rw [List.map_cons, List.prod_cons, ← mul_assoc] at fits
      have scaled : acc * d.cSize ≤ acc * d.size := mul_le_mul_of_nonneg_left most (by omega)
      have positive : 1 ≤ acc * d.cSize := one_le_mul_of_one_le_of_one_le pos one
      have bound : acc * d.cSize * (ds.map Dimension.size).prod < 2 ^ 31 :=
        (mul_le_mul_of_nonneg_right scaled (by omega)).trans_lt fits
      have small : acc * d.cSize < 2 ^ 31 := (le_mul_of_one_le_right (by omega) rest).trans_lt bound
      rw [List.foldl_cons, i32_of_fits ⟨by omega, small⟩, ih positive others bound, List.map_cons,
        List.prod_cons, mul_assoc]

theorem updateLength_good {a : Array} (consistent : ∀ d ∈ a.shape, d.Consistent)
    (fits : a.sizes < 2 ^ 31) : a.updateLength.Good := by
  refine ⟨consistent, ?_⟩
  have product := product_from (le_refl 1) consistent (by rw [one_mul]; exact fits)
  rw [one_mul] at product
  exact product

theorem resetFrom_cons (a : Array) (done : List Dimension) (d : Dimension) (todo : List Dimension) :
    a.resetFrom done (d :: todo) =
      updateLength { a with shape := done ++ (d :: todo).map Dimension.reset } := by
  induction todo generalizing a done d with
  | nil => simp [resetFrom, updateLength]
  | cons e todo ih =>
      rw [resetFrom, ih]
      simp [updateLength]

/-- What the caller answers for: sizes are positive and their product fits an
    `int`, and an iterator points to a dimension. -/
def Allowed (a : Array) : Mutation → Prop
  | .appendDim size | .prependDim size => 1 ≤ size ∧ a.sizes * size < 2 ^ 31
  | .appendD4Dim dim | .prependD4Dim dim => 1 ≤ dim.size ∧ a.sizes * dim.size < 2 ^ 31
  | .addConstraint i _ _ _ | .addD4Constraint i _ => i < a.shape.length
  | .clearAllDims | .resetConstraint => True

/-- A constraint starts in its dimension and not behind its stop, or it is refused. -/
def Starts (a : Array) (i : Nat) (start stride stop : Int) : Prop :=
  ∀ d ∈ a.shape[i]?, d.Refuses start stride (d.lastIndex stop) ∨
    (0 ≤ start ∧ start ≤ d.lastIndex stop)

/-- The mutation does not let a selection through that is none, and computes the
    length where it has to. -/
def Meets (a : Array) : Mutation → Prop
  | .appendDim _ | .appendD4Dim _ | .prependDim _ | .prependD4Dim _ => True
  | .clearAllDims => a.length = 1
  | .resetConstraint => a.shape ≠ []
  | .addConstraint i start stride stop => a.Starts i start stride stop
  | .addD4Constraint i dim =>
    dim.constrained = true → a.Starts i (i32 dim.cStart) (i32 dim.cStride) (i32 dim.cStop)

def AllAllowed (a : Array) : List Mutation → Prop
  | [] => True
  | m :: ms => a.Allowed m ∧ (a.mutate m).AllAllowed ms

def AllMeet (a : Array) : List Mutation → Prop
  | [] => True
  | m :: ms => a.Meets m ∧ (a.mutate m).AllMeet ms

/-- Every state that is reached is good. -/
def StaysGood (a : Array) : List Mutation → Prop
  | [] => True
  | m :: ms => (a.mutate m).Good ∧ (a.mutate m).StaysGood ms

/-- A new array, or a good one whose size fits. -/
structure Known (a : Array) : Prop where
  good : a = create ∨ a.Good
  fits : a.sizes < 2 ^ 31

theorem Known.consistent {a : Array} (known : a.Known) : ∀ d ∈ a.shape, d.Consistent := by
  rcases known.good with rfl | good
  · simp [create]
  · exact good.consistent

theorem grow_good {a b : Array} {d : Dimension} (known : a.Known) (whole : d = .ofSize d.size)
    (pos : 1 ≤ d.size) (fits : a.sizes * d.size < 2 ^ 31)
    (grown : b.shape = a.shape ++ [d] ∨ b.shape = d :: a.shape) :
    b.updateLength.Good ∧ b.updateLength.sizes < 2 ^ 31 := by
  have one := one_le_sizes known.consistent
  have sizes : b.updateLength.sizes = a.sizes * d.size := by
    rcases grown with shape | shape
    · simp [updateLength, Array.sizes, shape]
    · simp [updateLength, Array.sizes, shape, mul_comm]
  have small : d.size < 2 ^ 31 := (le_mul_of_one_le_left (by omega) one).trans_lt fits
  have new : d.Consistent := by
    rw [whole]
    exact Dimension.whole_consistent pos small rfl rfl rfl rfl
  refine ⟨updateLength_good ?_ (sizes.trans_lt fits), sizes.trans_lt fits⟩
  intro e mem
  rcases grown with shape | shape
  · rw [shape, List.mem_append, List.mem_singleton] at mem
    rcases mem with mem | rfl
    · exact known.consistent e mem
    · exact new
  · rw [shape, List.mem_cons] at mem
    rcases mem with rfl | mem
    · exact new
    · exact known.consistent e mem

theorem i32_size {size : Nat} {sizes : Int} (one : 1 ≤ sizes) (fits : sizes * size < 2 ^ 31) :
    i32 size = size := by
  have small : (size : Int) ≤ sizes * size := le_mul_of_one_le_left (by omega) one
  exact i32_ofNat_of_lt (by omega)

theorem resetConstraint_good {a : Array} (known : a.Known) :
    (a.resetConstraint.Good ↔ a.shape ≠ []) ∧ a.resetConstraint.sizes = a.sizes := by
  cases shape : a.shape with
  | nil =>
      refine ⟨⟨?_, fun some => absurd rfl some⟩, ?_⟩
      · intro good
        have counted := good.counted
        simp [resetConstraint, resetFrom, shape] at counted
      · simp [resetConstraint, resetFrom, shape, sizes]
  | cons d todo =>
      have consistent := known.consistent
      have same : ({ a with length := -1, shape := (d :: todo).map Dimension.reset } : Array).sizes =
          a.sizes := by
        simp [sizes, shape, Dimension.reset, Function.comp_def]
      rw [resetConstraint, shape, resetFrom_cons, List.nil_append]
      refine ⟨⟨fun _ => by simp, fun _ => ?_⟩, same⟩
      apply updateLength_good _ (same.trans_lt known.fits)
      intro e mem
      obtain ⟨d', mem', rfl⟩ := List.mem_map.mp mem
      rw [← shape] at mem'
      have small := (size_le_sizes consistent mem').trans_lt known.fits
      exact Dimension.whole_consistent (consistent d' mem').size_pos small rfl rfl rfl rfl

theorem addConstraint_ok {a b : Array} {i : Nat} {start stride stop : Int} {d : Dimension}
    (at_ : a.shape[i]? = some d) (accepted : a.addConstraint i start stride stop = .ok b) :
    ¬ d.Refuses start stride (d.lastIndex stop) ∧
      b = updateLength { a with shape := a.shape.set i (d.constrain start stride (d.lastIndex stop)) } := by
  simp only [addConstraint, at_] at accepted
  split at accepted
  · cases accepted
  · rename_i allowed
    cases accepted
    exact ⟨allowed, rfl⟩

theorem sizes_set {shape : List Dimension} {i : Nat} {d e : Dimension} (at_ : shape[i]? = some d)
    (same : e.size = d.size) : (shape.set i e).map Dimension.size = shape.map Dimension.size := by
  obtain ⟨bound, rfl⟩ := List.getElem?_eq_some_iff.mp at_
  have mapped : i < (shape.map Dimension.size).length := by simpa using bound
  have there : (shape.map Dimension.size)[i] = shape[i].size := by simp
  rw [List.map_set, same, ← there, List.set_getElem_self]

theorem addConstraint_good {a b : Array} (known : a.Known) {i : Nat} {start stride stop : Int}
    (accepted : a.addConstraint i start stride stop = .ok b) :
    (b.Good ↔ a.Starts i start stride stop) ∧ b.sizes = a.sizes := by
  cases at_ : a.shape[i]? with
  | none => simp [addConstraint, at_] at accepted
  | some d =>
      obtain ⟨allowed, rfl⟩ := addConstraint_ok at_ accepted
      have consistent := known.consistent
      have small := (size_le_sizes consistent (List.mem_of_getElem? at_)).trans_lt known.fits
      have sizes : ({ a with
          shape := a.shape.set i (d.constrain start stride (d.lastIndex stop)) } : Array).sizes = a.sizes := by
        exact congrArg List.prod (sizes_set at_ rfl)
      have starts : a.Starts i start stride stop ↔ 0 ≤ start ∧ start ≤ d.lastIndex stop := by
        simp [Starts, at_, allowed]
      refine ⟨?_, sizes⟩
      rw [starts, ← Dimension.constrain_consistent small allowed]
      constructor
      · intro good
        apply good.consistent
        have bound := (List.getElem?_eq_some_iff.mp at_).1
        exact List.mem_set bound _
      · intro new
        apply updateLength_good _ (sizes.trans_lt known.fits)
        intro e mem
        rcases List.mem_or_eq_of_mem_set mem with old | rfl
        · exact consistent e old
        · exact new

/-- A constraint that throws changes nothing, and one that starts outside or behind
    its stop does not throw only when it is let through. -/
theorem constrain_or_throw {a : Array} (known : a.Known) {i : Nat} (bound : i < a.shape.length)
    (start stride stop : Int) :
    ((∃ b, a.addConstraint i start stride stop = .ok b ∧ (b.Good ↔ a.Starts i start stride stop) ∧
        b.sizes = a.sizes) ∨
      ((∃ e, a.addConstraint i start stride stop = .error e) ∧ a.Starts i start stride stop ∧ a.Good)) := by
  have at_ : a.shape[i]? = some a.shape[i] := List.getElem?_eq_getElem bound
  by_cases refused : a.shape[i].Refuses start stride (a.shape[i].lastIndex stop)
  · right
    refine ⟨⟨array_sss, by simp [addConstraint, at_, refused]; rfl⟩, ?_, ?_⟩
    · intro d mem
      rw [at_, Option.mem_some_iff] at mem
      subst mem
      exact .inl refused
    · rcases known.good with rfl | good
      · exact absurd bound (Nat.not_lt_zero i)
      · exact good
  · left
    refine ⟨_, by simp only [addConstraint, at_, if_neg refused]; rfl, ?_⟩
    apply addConstraint_good known
    simp only [addConstraint, at_, if_neg refused]
    rfl

/-- One mutation keeps the array good exactly when it meets its condition. -/
theorem mutate_good {a : Array} (known : a.Known) {m : Mutation} (allowed : a.Allowed m) :
    ((a.mutate m).Good ↔ a.Meets m) ∧ ((a.mutate m).Good → (a.mutate m).Known) := by
  have one := one_le_sizes known.consistent
  have grown : ∀ {b : Array}, b.Good ∧ b.sizes < 2 ^ 31 → (b.Good ↔ True) ∧ (b.Good → b.Known) :=
    fun h => ⟨iff_true_intro h.1, fun good => ⟨.inr good, h.2⟩⟩
  cases m with
  | appendDim size => exact grown (grow_good known rfl allowed.1 allowed.2 (.inl rfl))
  | prependDim size => exact grown (grow_good known rfl allowed.1 allowed.2 (.inr rfl))
  | appendD4Dim dim =>
      have same : (Dimension.ofD4 dim).size = dim.size := i32_size one allowed.2
      have pos : 1 ≤ (Dimension.ofD4 dim).size := by
        rw [same]
        exact_mod_cast allowed.1
      exact grown (grow_good known rfl pos (same.symm ▸ allowed.2) (.inl rfl))
  | prependD4Dim dim =>
      have same : (Dimension.ofD4 dim).size = dim.size := i32_size one allowed.2
      have pos : 1 ≤ (Dimension.ofD4 dim).size := by
        rw [same]
        exact_mod_cast allowed.1
      exact grown (grow_good known rfl pos (same.symm ▸ allowed.2) (.inr rfl))
  | clearAllDims =>
      refine ⟨⟨fun good => good.counted, fun meets => ⟨nofun, meets⟩⟩, fun good => ⟨.inr good, ?_⟩⟩
      exact (by decide : (1 : Int) < 2 ^ 31)
  | resetConstraint =>
      obtain ⟨good, sizes⟩ := resetConstraint_good known
      exact ⟨good, fun good => ⟨.inr good, sizes.trans_lt known.fits⟩⟩
  | addConstraint i start stride stop =>
      simp only [mutate, Meets]
      rcases constrain_or_throw known allowed start stride stop with ⟨b, ok, good, sizes⟩ | ⟨⟨e, error⟩, starts, good⟩
      · rw [ok]
        exact ⟨good, fun good => ⟨.inr good, sizes.trans_lt known.fits⟩⟩
      · rw [error]
        exact ⟨iff_of_true good starts, fun good => ⟨.inr good, known.fits⟩⟩
  | addD4Constraint i dim =>
      simp only [mutate, addD4Constraint, Meets]
      by_cases constrained : dim.constrained = true
      · simp only [constrained, if_true, forall_const]
        rcases constrain_or_throw known allowed (i32 dim.cStart) (i32 dim.cStride) (i32 dim.cStop) with
          ⟨b, ok, good, sizes⟩ | ⟨⟨e, error⟩, starts, good⟩
        · rw [ok]
          exact ⟨good, fun good => ⟨.inr good, sizes.trans_lt known.fits⟩⟩
        · rw [error]
          exact ⟨iff_of_true good starts, fun good => ⟨.inr good, known.fits⟩⟩
      · simp only [constrained, if_false, Bool.false_eq_true, false_implies, iff_true]
        rcases known.good with rfl | good
        · exact absurd allowed (Nat.not_lt_zero i)
        · exact ⟨good, fun good => ⟨.inr good, known.fits⟩⟩

/-- Every run of mutations: all states it reaches are good exactly when every
    mutation meets its condition in the state before it. -/
theorem staysGood_iff {a : Array} (known : a.Known) (ms : List Mutation) (allowed : a.AllAllowed ms) :
    a.StaysGood ms ↔ a.AllMeet ms := by
  induction ms generalizing a with
  | nil => exact Iff.rfl
  | cons m ms ih =>
      obtain ⟨good, after⟩ := mutate_good known allowed.1
      constructor
      · rintro ⟨now, later⟩
        exact ⟨good.mp now, (ih (after now) allowed.2).mp later⟩
      · rintro ⟨now, later⟩
        have here := good.mpr now
        exact ⟨here, (ih (after here) allowed.2).mpr later⟩

theorem staysGood_four : create.StaysGood
    [.appendDim 10, .addConstraint 0 2 3 8, .prependDim 3, .resetConstraint] := by
  have allowed : create.AllAllowed
      [.appendDim 10, .addConstraint 0 2 3 8, .prependDim 3, .resetConstraint] :=
    ⟨⟨by decide, by decide⟩, Nat.one_pos, ⟨by decide, by decide⟩, trivial, trivial⟩
  apply (staysGood_iff ⟨.inl rfl, by decide⟩ _ allowed).mpr
  refine ⟨trivial, ?_, trivial, List.cons_ne_nil _ _, trivial⟩
  intro d mem
  cases mem
  exact .inr (by decide)

/-- On ten elements the selection from 5 to 2 is let through, as one of -2. -/
theorem reversed_accepted :
    (create.appendDim 10).addConstraint 0 5 1 2 = .ok ⟨[⟨10, 5, 2, 1, -2⟩], -2, false⟩ ∧
      ¬ create.StaysGood [.appendDim 10, .addConstraint 0 5 1 2] := by
  refine ⟨rfl, ?_⟩
  rintro ⟨-, good, -⟩
  have ordered := (good.consistent ⟨10, 5, 2, 1, -2⟩ (by decide)).valid.ordered
  revert ordered
  decide

end Array

end Libdap.Dap2
