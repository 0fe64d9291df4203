import Libdap.Dap2.DdsReceived
import Mathlib.Data.List.TakeWhile

/-! # Sizes in a DDS

A size that is printed is no keyword, passes `check_int32` and is what `atoi` finds.
-/

namespace Libdap.Dap2.Text

open Dap4 (Name)

/-- A number starts with its sign or a digit, and not with a zero unless it is zero. -/
theorem digits_cases (n : Nat) : ∃ c cs, Nat.toDigits 10 n = c :: cs ∧ c.isDigit = true ∧ (c = '0' → cs = []) := by
  induction n using Nat.base_induction 10 (by decide) with
  | single m small =>
      rw [Nat.toDigits_of_lt_base small]
      refine ⟨m.digitChar, [], rfl, ?_, fun _ => rfl⟩
      revert m
      decide
  | digit high low small some_ ih =>
      obtain ⟨c, cs, shown, digit, zero⟩ := ih
      rw [← Nat.toDigits_append_toDigits (by decide) some_ small, shown]
      refine ⟨c, cs ++ Nat.toDigits 10 low, rfl, digit, ?_⟩
      rintro rfl
      obtain rfl := zero rfl
      have value : Nat.ofDigitChars 10 (Nat.toDigits 10 high) 0 = high := Nat.ofDigitChars_ten_toDigits
      rw [shown] at value
      exact absurd value.symm (Nat.ne_of_gt some_)

theorem digits_char (n : Nat) : ∀ c ∈ Nat.toDigits 10 n, ∃ d < 10, c = d.digitChar := by
  induction n using Nat.base_induction 10 (by decide) with
  | single m small =>
      rw [Nat.toDigits_of_lt_base small]
      exact List.forall_mem_singleton.mpr ⟨m, small, rfl⟩
  | digit high low small some_ ih =>
      rw [← Nat.toDigits_append_toDigits (by decide) some_ small, Nat.toDigits_of_lt_base small]
      intro c mem
      rcases List.mem_append.mp mem with mem | mem
      · exact ih c mem
      · exact ⟨low, small, List.mem_singleton.mp mem⟩

theorem digits_isDigit (n : Nat) : ∀ c ∈ Nat.toDigits 10 n, c.isDigit = true :=
  fun _ mem => Nat.isDigit_of_mem_toDigits (by decide) (by decide) mem

theorem foldl_digits {cs : List Char} (digits : ∀ c ∈ cs, c.isDigit = true) (m : Nat) :
    cs.foldl (fun (n : Int) c => n * (10 : Nat) + digitOf c) m = Nat.ofDigitChars 10 cs m := by
  induction cs generalizing m with
  | nil => rfl
  | cons c cs ih =>
      obtain ⟨first, others⟩ := List.forall_mem_cons.mp digits
      have digit : digitOf c = c.toNat - '0'.toNat := if_pos first
      rw [List.foldl_cons, Nat.ofDigitChars_cons, ← ih others, digit]
      congr 1
      push_cast
      ring

theorem signOf_showInt (n : Int) : signOf (showInt n) = (decide (n < 0), Nat.toDigits 10 n.natAbs) := by
  rw [showInt]
  split
  · rename_i negative
    rw [signOf, decide_eq_true negative]
  · rename_i positive
    obtain ⟨c, cs, shown, digit, -⟩ := digits_cases n.natAbs
    rw [shown, decide_eq_false positive, signOf]
    · rintro s same
      rw [(List.cons.inj same).1] at digit
      revert digit
      decide
    · rintro s same
      rw [(List.cons.inj same).1] at digit
      revert digit
      decide

theorem store_showInt {n : Int} (fits : Ints.FitsI32 n) : store_word (showInt n) = showInt n := by
  have length : (Nat.toDigits 10 n.natAbs).length ≤ 10 := by
    rw [Nat.length_toDigits_le_iff (by decide) (by decide)]
    obtain ⟨low, high⟩ := fits
    omega
  apply List.take_of_length_le
  rw [showInt]
  split
  · rw [List.length_cons, ID_MAX]
    omega
  · rw [ID_MAX]
    omega

theorem signed {n : Int} : (if decide (n < 0) = true then -(n.natAbs : Int) else n.natAbs) = n := by
  by_cases negative : n < 0
  · rw [if_pos (decide_eq_true negative)]
    omega
  · rw [if_neg (by simpa using negative)]
    omega

theorem atoi_showInt (n : Int) : atoi (showInt n) = n := by
  have all : (Nat.toDigits 10 n.natAbs).takeWhile Char.isDigit = Nat.toDigits 10 n.natAbs :=
    List.takeWhile_eq_self_iff.mpr (digits_isDigit _)
  have value := foldl_digits (digits_isDigit n.natAbs) 0
  rw [Nat.ofDigitChars_ten_toDigits] at value
  rw [atoi, signOf_showInt]
  simp only [all]
  exact (congrArg (fun m : Int => if decide (n < 0) = true then -m else m) value).trans signed

theorem baseOf_digits (n : Nat) : baseOf (Nat.toDigits 10 n) = (10, Nat.toDigits 10 n) ∨ n = 0 := by
  obtain ⟨c, cs, shown, -, zero⟩ := digits_cases n
  by_cases first : c = '0'
  · right
    have value : Nat.ofDigitChars 10 (Nat.toDigits 10 n) 0 = n := Nat.ofDigitChars_ten_toDigits
    rw [shown, zero first, first] at value
    exact value.symm
  · left
    rw [shown, baseOf]
    · rintro x digit s same
      exact first (List.cons.inj same).1
    · rintro s same
      exact first (List.cons.inj same).1

theorem check_showInt {n : Int} (fits : Ints.FitsI32 n) : check_int32 (showInt n) = true := by
  rw [check_int32, signOf_showInt]
  rcases baseOf_digits n.natAbs with decimal | zero
  · have value := foldl_digits (digits_isDigit n.natAbs) 0
    rw [Nat.ofDigitChars_ten_toDigits] at value
    have small : ∀ c ∈ Nat.toDigits 10 n.natAbs, digitOf c < 10 := by
      intro c mem
      obtain ⟨d, lt, rfl⟩ := digits_char n.natAbs c mem
      clear mem
      revert d
      decide
    simp only [decimal, decide_eq_true_eq, List.all_eq_true]
    refine ⟨Nat.toDigits_ne_nil, small, ?_⟩
    have sign : (if n < 0 then -(n.natAbs : Int) else n.natAbs) = n := by
      split <;> omega
    have whole := (congrArg (fun m : Int => if n < 0 then -m else m) value).trans sign
    exact Eq.mpr (congrArg Ints.FitsI32 whole) fits
  · obtain rfl := Int.natAbs_eq_zero.mp zero
    decide

/-- No keyword starts with a digit. -/
theorem keyword_starts : ∀ k ∈ Keyword.all, ∀ w ∈ k.spellings, ∀ c ∈ w.head?, c.isAlpha = true := by
  have all : (Keyword.all.all fun k => k.spellings.all fun w => w.head?.all Char.isAlpha) = true := by decide +kernel
  simp only [List.all_eq_true, Option.all_eq_true] at all
  exact all

theorem ofWord_showInt (n : Int) : Keyword.ofWord (showInt n) = none := by
  rw [Keyword.ofWord, List.find?_eq_none]
  intro k mem spelled
  have spelled : showInt n ∈ k.spellings := by simpa using spelled
  have letter := keyword_starts k mem _ spelled
  obtain ⟨c, cs, shown, digit, -⟩ := digits_cases n.natAbs
  rw [showInt] at letter
  split at letter
  · exact absurd (letter '-' rfl) (by decide)
  · rw [shown] at letter
    obtain ⟨d, lt, rfl⟩ := digits_char n.natAbs c (shown ▸ List.mem_cons_self)
    have alpha := letter _ rfl
    clear shown digit mem spelled letter
    revert d
    decide

theorem reads_showInt (n : Int) (fits : Ints.FitsI32 n) : State.Reads n where
  word := ofWord_showInt n
  check := by rw [store_showInt fits, check_showInt fits]
  value := by rw [store_showInt fits, atoi_showInt]

end Libdap.Dap2.Text
