import Mathlib.Tactic.Ring
import Mathlib.Data.Nat.Log

/-! # Integers of different types side by side

What C does with two operands of different integer types: each is promoted, and
then both are converted to one type. Two integers compare right after that when
their order stays the same. A `double` keeps 53 bits of an integer.
-/

namespace Libdap

/-- An integer type. -/
structure CType where
  bits : Nat
  signed : Bool
  deriving Repr, DecidableEq

namespace CType

def least (t : CType) : Int := if t.signed then -2 ^ (t.bits - 1) else 0

/-- The first number that is too large. -/
def bound (t : CType) : Int := if t.signed then 2 ^ (t.bits - 1) else 2 ^ t.bits

def Fits (t : CType) (v : Int) : Prop := t.least ≤ v ∧ v < t.bound

instance (t : CType) (v : Int) : Decidable (t.Fits v) := inferInstanceAs (Decidable (_ ∧ _))

def convert (t : CType) (v : Int) : Int :=
  if t.signed then (v + 2 ^ (t.bits - 1)) % 2 ^ t.bits - 2 ^ (t.bits - 1) else v % 2 ^ t.bits

/-- Of two powers one is twice the other. -/
theorem pow_bits {t : CType} (some_ : 0 < t.bits) : (2 : Int) ^ t.bits = 2 * 2 ^ (t.bits - 1) ∧ (0 : Int) < 2 ^ (t.bits - 1) := by
  obtain ⟨n, bits⟩ := Nat.exists_eq_add_of_lt some_
  constructor
  · rw [bits, Nat.zero_add, Nat.add_sub_cancel, pow_succ, mul_comm]
  · exact Int.pow_pos (by decide)

theorem fits_convert {t : CType} (some_ : 0 < t.bits) (v : Int) : t.Fits (t.convert v) := by
  obtain ⟨twice, positive⟩ := pow_bits some_
  have least := Int.emod_nonneg v (by omega : (2 : Int) ^ t.bits ≠ 0)
  have bound := Int.emod_lt_of_pos v (by omega : (0 : Int) < 2 ^ t.bits)
  have least' := Int.emod_nonneg (v + 2 ^ (t.bits - 1)) (by omega : (2 : Int) ^ t.bits ≠ 0)
  have bound' := Int.emod_lt_of_pos (v + 2 ^ (t.bits - 1)) (by omega : (0 : Int) < 2 ^ t.bits)
  simp only [Fits, CType.least, CType.bound, convert]
  split <;> omega

theorem convert_of_fits {t : CType} (some_ : 0 < t.bits) {v : Int} (fits : t.Fits v) : t.convert v = v := by
  obtain ⟨twice, positive⟩ := pow_bits some_
  obtain ⟨least, bound⟩ := fits
  simp only [CType.least, CType.bound, convert] at least bound ⊢
  split at least
  · rename_i signed
    simp only [signed, if_true] at bound ⊢
    rw [Int.emod_eq_of_lt (by omega) (by omega)]
    omega
  · rename_i unsigned
    simp only [unsigned] at bound ⊢
    exact Int.emod_eq_of_lt least bound

/-- Integers between zero and one that fits, fit. -/
theorem Fits.between {t : CType} {v u : Int} (fits : t.Fits v) (low : 0 ≤ u ∨ v ≤ u) (high : u ≤ 0 ∨ u ≤ v) : t.Fits u := by
  obtain ⟨least, bound⟩ := fits
  have none_ : t.least ≤ 0 := by
    have positive : (0 : Int) < 2 ^ (t.bits - 1) := Int.pow_pos (by decide)
    unfold CType.least
    split <;> omega
  have some_ : 0 < t.bound := by
    unfold CType.bound
    split <;> exact Int.pow_pos (by decide)
  exact ⟨by omega, by omega⟩

/-- What is smaller than an `int` becomes one. -/
def promote (t : CType) : CType := if t.bits < 32 then ⟨32, true⟩ else t

/-- The usual arithmetic conversions, after the promotions. -/
def usual (t t' : CType) : CType :=
  if t.signed = t'.signed then if t.bits < t'.bits then t' else t
  else
    match t.signed with
    | true => if t.bits ≤ t'.bits then t' else t
    | false => if t'.bits ≤ t.bits then t else t'

def common (t t' : CType) : CType := usual t.promote t'.promote

end CType

/-- Two pairs of integers stand in the same order. -/
def SameOrder (a b a' b' : Int) : Prop := (a' < b' ↔ a < b) ∧ (a' = b' ↔ a = b)

theorem SameOrder.refl (a b : Int) : SameOrder a b a b := ⟨Iff.rfl, Iff.rfl⟩

theorem SameOrder.swap {a b a' b' : Int} (same : SameOrder a b a' b') : SameOrder b a b' a' := by
  obtain ⟨lt, eq⟩ := same
  constructor
  · omega
  · omega

/-- The sum of a power of two and a negative number above an unsigned number: the order is turned round
    unless that is above the sum. -/
theorem sameOrder_wrapped_iff {x u : Int} {bits : Nat} (negative : x < 0) (nonneg : 0 ≤ u) :
    SameOrder x u (x + 2 ^ bits) u ↔ x + 2 ^ bits < u := by
  unfold SameOrder
  constructor
  · rintro ⟨lt, -⟩
    omega
  · intro above
    omega

/-- An integer as a `double`, to the nearest and to the even one of two. -/
def toDouble (n : Nat) : Nat :=
  let e := Nat.log2 n - 52
  let q := n / 2 ^ e
  let r := n % 2 ^ e
  if 2 * r < 2 ^ e ∨ (2 * r = 2 ^ e ∧ q % 2 = 0) then q * 2 ^ e else (q + 1) * 2 ^ e

/-- The same with the sign. -/
def doubleOf (v : Int) : Int := if v < 0 then -(toDouble v.natAbs : Int) else toDouble v.natAbs

theorem toDouble_of_small {n : Nat} (small : n < 2 ^ 53) : toDouble n = n := by
  have exponent : Nat.log2 n - 52 = 0 := by
    by_cases zero : n = 0
    · rw [zero]
      rfl
    · have lt := (Nat.log2_lt zero).mpr small
      omega
  simp only [toDouble, exponent, pow_zero, Nat.div_one, Nat.mod_one, Nat.mul_zero, Nat.mul_one, Nat.lt_one_iff,
    true_or, ↓reduceIte]

theorem doubleOf_of_small {v : Int} (small : v.natAbs < 2 ^ 53) : doubleOf v = v := by
  unfold doubleOf
  rw [toDouble_of_small small]
  split
  · omega
  · omega

end Libdap
