import Libdap.Dap4.NumberChecks
import Libdap.Foundation.CInt

/-! # Decimal integers read with base 0

A text of decimal digits is read as the integer that it stands for, but behind a zero the digits are
octal ones: then the text is read up to its first digit that is none, and never as more than the integer.
-/

namespace Libdap.Dap4

open Numeral

/-- A sign or none, and decimal digits. -/
def Decimal (w : List Char) (v : Int) : Prop :=
  ∃ minus sign cs ds, w = sign ++ cs ∧ (if minus then sign = ['-'] else sign = [] ∨ sign = ['+']) ∧ cs ≠ [] ∧
    Digits 10 cs ds ∧ v = signed minus (number 10 ds)

/-- The first digit is a zero. -/
def zeroFirst (w : List Char) : Bool := (Numeral.sign w).2.head? == some '0'

/-- The base that the text asks for is that of the integer, or makes no difference. -/
def InBase (w : List Char) (v : Int) : Prop := zeroFirst w = true → v.natAbs < 8

instance (w : List Char) (v : Int) : Decidable (InBase w v) := inferInstanceAs (Decidable (_ → _))

section

variable {cs w : List Char} {ds : List Nat} {v : Int}

theorem digit_octal {c : Char} {d : Nat} (decimal : digit 10 c = some d) : digit 8 c = if d < 8 then some d else none := by
  obtain ⟨low, high⟩ := digit_ten decimal
  simp only [digit, low, high, and_self, if_true] at decimal ⊢
  grind

theorem le_foldl (n : Nat) (ds : List Nat) : n ≤ ds.foldl (fun n d => 10 * n + d) n := by
  induction ds generalizing n with
  | nil => exact le_rfl
  | cons d ds ih =>
      have more := ih (10 * n + d)
      rw [List.foldl_cons]
      omega

/-- What is less after some digits stays so. -/
theorem foldl_octal_lt {m n : Nat} (less : m < n) (all : Digits 10 cs ds) :
    (digits 8 cs).1.foldl (fun n d => 8 * n + d) m < ds.foldl (fun n d => 10 * n + d) n := by
  induction all generalizing m n with
  | nil => exact less
  | @cons c d cs ds first rest ih =>
      rw [digits, digit_octal first]
      by_cases octal : d < 8
      · simp only [if_pos octal, List.foldl_cons]
        exact ih (by omega)
      · have more := le_foldl (10 * n + d) ds
        simp only [if_neg octal, List.foldl_nil, List.foldl_cons]
        omega

/-- Octal digits come to the same as decimal ones for a number of one digit, and to less for a larger one. -/
theorem foldl_octal (n : Nat) (all : Digits 10 cs ds) :
    let octal := (digits 8 cs).1.foldl (fun n d => 8 * n + d) n
    let decimal := ds.foldl (fun n d => 10 * n + d) n
    (octal = decimal ∧ (ds = [] ∨ decimal < 8)) ∨ octal < decimal ∧ 8 ≤ decimal := by
  induction all generalizing n with
  | nil => exact .inl ⟨rfl, .inl rfl⟩
  | @cons c d cs ds first rest ih =>
      have more := le_foldl (10 * n + d) ds
      rw [digits, digit_octal first]
      by_cases octal : d < 8
      · simp only [if_pos octal, List.foldl_cons]
        by_cases zero : n = 0
        · subst zero
          simp only [Nat.mul_zero, Nat.zero_add]
          rcases ih d with ⟨same, none_ | small⟩ | less
          · left
            refine ⟨same, .inr ?_⟩
            rw [none_]
            exact octal
          · exact .inl ⟨same, .inr small⟩
          · exact .inr less
        · have less := foldl_octal_lt (m := 8 * n + d) (n := 10 * n + d) (by omega) rest
          right
          refine ⟨less, ?_⟩
          omega
      · simp only [if_neg octal, List.foldl_nil, List.foldl_cons]
        omega

/-- In front of the digits there are no blanks, and the sign is taken off. -/
theorem sign_digits {minus : Bool} {sign : List Char} {c : Char} (cs : List Char)
    (signs : if minus then sign = ['-'] else sign = [] ∨ sign = ['+']) (low : '0' ≤ c) (high : c ≤ '9') :
    (sign ++ c :: cs).dropWhile isspace = sign ++ c :: cs ∧ Numeral.sign (sign ++ c :: cs) = (minus, c :: cs) := by
  obtain ⟨blank, no_minus, no_plus⟩ := plain_digit low high
  cases minus with
  | true =>
      obtain rfl : sign = ['-'] := signs
      exact ⟨rfl, rfl⟩
  | false =>
      rcases signs with rfl | rfl
      · exact ⟨List.dropWhile_cons_of_neg (Bool.eq_false_iff.mp blank), sign_plain no_minus no_plus cs⟩
      · exact ⟨rfl, rfl⟩

theorem base_zero (all : Digits 10 cs ds) : Numeral.base ('0' :: cs) = (8, '0' :: cs) := by
  unfold Numeral.base
  split
  · rename_i x c rest same
    obtain rfl := (List.cons.inj same).2
    apply if_neg
    rintro ⟨mark, -⟩
    rcases all with _ | ⟨first, -⟩
    have none_ : digit 10 'x' = none ∧ digit 10 'X' = none := by decide
    rcases mark with rfl | rfl
    · rw [none_.1] at first
      cases first
    · rw [none_.2] at first
      cases first
  · rename_i same
    rw [(List.cons.inj same).2]
  · rename_i other
    exact absurd rfl (other cs)

/-- A decimal integer is read with its sign. What is read is the integer, or less behind a zero. -/
theorem read_of_decimal (decimal : Decimal w v) : ∃ minus n m rest, Numeral.read w = some ⟨minus, m, rest⟩ ∧
    v = signed minus n ∧ (m = n ∧ InBase w v ∨ m < n ∧ ¬InBase w v) := by
  obtain ⟨minus, sign, cs, ds, rfl, signs, some_, all, rfl⟩ := decimal
  cases all with
  | nil => exact absurd rfl some_
  | @cons c d cs ds first rest =>
      obtain ⟨low, high⟩ := digit_ten first
      obtain ⟨left, front⟩ := sign_digits cs signs low high
      have head : zeroFirst (sign ++ c :: cs) = (c == '0') := by
        rw [zeroFirst, front]
        rfl
      have abs : (signed minus (number 10 (d :: ds))).natAbs = number 10 (d :: ds) := by
        cases minus <;> simp [signed]
      by_cases zero : c = '0'
      · subst zero
        have base := base_zero rest
        have octal := foldl_octal 0 (.cons first rest)
        have value := digit_octal first
        obtain rfl : d = 0 := (Option.some.inj first).symm
        refine ⟨minus, number 10 (0 :: ds), number 8 (digits 8 ('0' :: cs)).1, (digits 8 ('0' :: cs)).2, ?_, rfl, ?_⟩
        · simp only [Numeral.read, left, front, base, digits, value]
          rfl
        · simp only [InBase, head, abs, beq_self_eq_true, forall_const]
          rcases octal with ⟨same, none_ | small⟩ | ⟨less, large⟩
          · cases none_
          · exact .inl ⟨same, small⟩
          · exact .inr ⟨less, Nat.not_lt.mpr large⟩
      · have denotes : Denotes (sign ++ c :: cs) minus (number 10 (d :: ds)) :=
          ⟨[], sign, c :: cs, rfl, by simp, signs, .decimal zero (.cons first rest)⟩
        refine ⟨minus, number 10 (d :: ds), number 10 (d :: ds), [], (read_of_denotes denotes).1, rfl, .inl ⟨rfl, ?_⟩⟩
        intro ahead
        rw [head, beq_iff_eq] at ahead
        exact absurd ahead zero

variable {minus : Bool} {m : Nat} {rest : List Char}

theorem strtoll_of_read (read : Numeral.read w = some ⟨minus, m, rest⟩)
    (inside : -2 ^ 63 ≤ signed minus m ∧ signed minus m < 2 ^ 63) : (strtoll w).value = signed minus m := by
  simp only [strtoll, read]
  rw [if_neg (by omega), if_neg (by omega)]

theorem strtoull_of_read (read : Numeral.read w = some ⟨minus, m, rest⟩)
    (inside : 0 ≤ signed minus m ∧ signed minus m < 2 ^ 64) : (strtoull w).value = signed minus m := by
  have small : ¬2 ^ 64 ≤ m := by
    unfold signed at inside
    cases minus <;> simp at inside <;> omega
  simp only [strtoull, read, if_neg small, u64]
  omega

/-- What fits a type is converted to it as it is read. -/
def ReadsInto (t : CType) (number : List Char → Int) : Prop :=
  0 < t.bits ∧ ∀ w minus m rest, Numeral.read w = some ⟨minus, m, rest⟩ → t.Fits (signed minus m) →
    number w = signed minus m

/-- A decimal integer arrives in a type when it fits and its base is read. -/
theorem convert_number_iff {t : CType} {number : List Char → Int} (reads : ReadsInto t number) (decimal : Decimal w v) :
    t.convert (number w) = v ↔ t.Fits v ∧ InBase w v := by
  obtain ⟨some_, reads⟩ := reads
  obtain ⟨minus, n, m, rest, read, value, cases_⟩ := read_of_decimal decimal
  have arrives (fits : t.Fits v) : t.convert (number w) = signed minus m := by
    have fits' : t.Fits (signed minus m) := by
      unfold signed at value ⊢
      apply fits.between
      · grind
      · grind
    rw [reads w minus m rest read fits', CType.convert_of_fits some_ fits']
  constructor
  · intro same
    have fits : t.Fits v := same ▸ CType.fits_convert some_ _
    refine ⟨fits, ?_⟩
    rcases cases_ with ⟨-, inBase⟩ | ⟨less, -⟩
    · exact inBase
    · have equal : signed minus m = signed minus n := (arrives fits).symm.trans (same.trans value)
      unfold signed at equal
      split at equal <;> omega
  · rintro ⟨fits, inBase⟩
    rcases cases_ with ⟨rfl, -⟩ | ⟨-, other⟩
    · rw [arrives fits, value]
    · exact absurd inBase other

end

end Libdap.Dap4
