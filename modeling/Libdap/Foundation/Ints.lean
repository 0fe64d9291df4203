import Mathlib.Tactic.NormNum

/-! # Machine integers

The conversions of a value to `int32_t` and to `uint32_t`: the value modulo
`2 ^ 32`, read in two's complement for the signed type. A result of signed
arithmetic that does not fit is taken to wrap in the same way.
-/

namespace Libdap.Ints

/-- Conversion to a signed 32-bit integer. -/
def i32 (x : Int) : Int := (x + 2 ^ 31) % 2 ^ 32 - 2 ^ 31

/-- Conversion to an unsigned 32-bit integer. -/
def u32 (x : Int) : Nat := (x % 2 ^ 32).toNat

/-- The value is representable as a signed 32-bit integer. -/
def FitsI32 (x : Int) : Prop := -2 ^ 31 ≤ x ∧ x < 2 ^ 31

instance (x : Int) : Decidable (FitsI32 x) := inferInstanceAs (Decidable (_ ∧ _))

theorem i32_fits (x : Int) : FitsI32 (i32 x) := by
  simp only [FitsI32, i32]
  omega

theorem i32_of_fits {x : Int} (fits : FitsI32 x) : i32 x = x := by
  simp only [FitsI32] at fits
  simp only [i32]
  omega

theorem i32_ofNat_of_lt {n : Nat} (small : n < 2 ^ 31) : i32 n = n :=
  i32_of_fits ⟨by omega, by omega⟩

/-- A number that an `int` takes for a negative one. -/
theorem i32_wrapped {n : Nat} (large : 2 ^ 31 ≤ n) (bound : n < 2 ^ 32) : i32 n < 0 := by
  simp only [i32]
  omega

theorem u32_lt (x : Int) : u32 x < 2 ^ 32 := by
  simp only [u32]
  omega

@[simp]
theorem u32_ofNat (n : Nat) : u32 n = n % 2 ^ 32 := by
  simp only [u32]
  omega

theorem u32_of_lt {n : Nat} (small : n < 2 ^ 32) : u32 n = n := by
  rw [u32_ofNat, Nat.mod_eq_of_lt small]

/-- `char_traits<char>::eof()`. -/
def eof : Int := -1

/-- `char_traits<char>::not_eof`: the argument as an `int`, with the end-of-file
value replaced by zero. -/
def notEof (x : Int) : Int := if i32 x = eof then 0 else i32 x

theorem notEof_ofNat {n : Nat} (small : n < 2 ^ 31) : notEof n = n := by
  rw [notEof, i32_ofNat_of_lt small, if_neg (by simp [eof])]

theorem notEof_lt (x : Int) : notEof x < 2 ^ 31 := by
  have fits := (i32_fits x).2
  unfold notEof
  split
  · omega
  · exact fits

end Libdap.Ints
