import Libdap.Dap4.NumberTexts
import Libdap.Foundation.CInt

/-! # Integers as texts

`long_to_string` writes the digits of an integer in a base, the last one after those of the quotient. What it
writes is read back as the integer, but for the least one, whose absolute value is not a `long`.
-/

namespace Libdap.Util

open Dap4

/-- What is thrown, and what has no meaning. -/
inductive LongFailure where
  | invalid_argument (message : String)
  | undefined
  deriving Repr, DecidableEq

def long : CType := ⟨64, true⟩

/-- The absolute value as a `long`. -/
def labs (x : Int) : Int := long.convert x.natAbs

def longDigits : List Char := "0123456789ABCDEFGHIJKLMNOPQRSTUVWXYZ".toList

theorem labs_of_fits {x : Int} (fits : long.Fits x) (other : x ≠ -2 ^ 63) : labs x = x.natAbs := by
  obtain ⟨least, bound⟩ := fits
  simp only [CType.least, CType.bound, long, if_true, Nat.reduceSub] at least bound
  simp only [labs, CType.convert, long, if_true, Nat.reduceSub]
  omega

theorem labs_least : labs (-2 ^ 63) = -2 ^ 63 := by decide

/-- The absolute value is not above the integer without its sign. -/
theorem labs_le (x : Int) : labs x ≤ x.natAbs := by
  simp only [labs, CType.convert, long, if_true, Nat.reduceSub]
  omega

/-- The quotient is smaller. -/
theorem quot_lt {val base : Int} (more : 2 ≤ base) (some_ : 0 < (labs val).tdiv base) :
    ((labs val).tdiv base).natAbs < val.natAbs := by
  have positive : 0 < labs val := by
    by_contra none_
    have least : 0 ≤ (-labs val).tdiv base := Int.tdiv_nonneg (by omega) (by omega)
    rw [Int.neg_tdiv] at least
    omega
  have less : (labs val).tdiv base < labs val := by
    rw [Int.tdiv_eq_ediv_of_nonneg (by omega)]
    exact Int.ediv_lt_self_of_pos_of_ne_one positive (by omega)
  have most := labs_le val
  omega

/-- An element of the array, if the index is inside. -/
def longDigit (i : Int) : Except LongFailure Char :=
  if i < 0 then .error .undefined
  else
    match longDigits[i.toNat]? with
    | none => .error .undefined
    | some digit => .ok digit

/-- The digits of the quotient come first. -/
def append_long_to_string (val base : Int) (str_val : List Char) : Except LongFailure (List Char) :=
  if _bad : base > 36 ∨ base < 2 then .error (.invalid_argument "The parameter base has an invalid value.")
  else
    let str_val := if val < 0 then str_val ++ ['-'] else str_val
    let quot := (labs val).tdiv base
    let rem := (labs val).tmod base
    let front := if _more : quot > 0 then append_long_to_string quot base str_val else .ok str_val
    front.bind fun str_val => (longDigit rem).map fun digit => str_val ++ [digit]
termination_by val.natAbs
decreasing_by exact quot_lt (by omega) _more

def long_to_string (val base : Int) : Except LongFailure (List Char) := append_long_to_string val base []

/-- A `long` and a base that has digits. -/
structure Writable (val base : Int) : Prop where
  fits : long.Fits val
  more : 2 ≤ base
  few : base ≤ 36

/-- What the digits of a text in a base come to, if it has no others. -/
def readNat (base : Nat) (text : List Char) : Option Nat :=
  match Numeral.digits base text with
  | (d :: ds, []) => some (number base (d :: ds))
  | _ => none

/-- What is read behind a minus sign or none. -/
def readIn (base : Nat) : List Char → Option Int
  | '-' :: text => (readNat base text).map fun n => -(n : Int)
  | text => (readNat base text).map fun n => (n : Int)

section

variable {base : Nat} {cs text : List Char} {ds : List Nat}

theorem digit_of_index (few : base ≤ 36) {d : Nat} (less : d < base) :
    ∃ c, longDigit d = .ok c ∧ Numeral.digit base c = some d ∧ c ≠ '-' := by
  have small : d < 36 := by omega
  let at_ (d : Nat) := longDigits.getD d '-'
  have all : ∀ d : Fin 36, longDigits[d.val]? = some (at_ d) ∧ Numeral.digit 36 (at_ d) = some d.val ∧ at_ d ≠ '-' ∧
      (('0' ≤ at_ d ∧ at_ d ≤ '9') ∨ ('a' ≤ at_ d ∧ at_ d ≤ 'z') ∨ 'A' ≤ at_ d ∧ at_ d ≤ 'Z') := by decide +kernel
  obtain ⟨there, value, other, kind⟩ := all ⟨d, small⟩
  generalize at_ d = c at there value other kind
  refine ⟨c, ?_, ?_, other⟩
  · have inside : ¬((d : Int) < 0) := by omega
    simp only [longDigit, if_neg inside, Int.toNat_natCast, there]
  · simp only [Numeral.digit] at value ⊢
    split_ifs at value ⊢ <;> grind

theorem number_append (base : Nat) (ds : List Nat) (d : Nat) : number base (ds ++ [d]) = base * number base ds + d :=
  List.foldl_concat ..

theorem readNat_of_digits (all : Digits base cs ds) (some_ : cs ≠ []) : readNat base cs = some (number base ds) := by
  cases all with
  | nil => exact absurd rfl some_
  | cons first rest =>
      unfold readNat
      rw [digits_eq_iff.mpr (.cons first rest)]

/-- What a number without a sign adds to a text. -/
theorem append_natural {n : Nat} (writable : Writable n base) :
    ∃ c rest ds, (∀ str_val, append_long_to_string n base str_val = .ok (str_val ++ c :: rest)) ∧
      Digits base (c :: rest) ds ∧ number base ds = n ∧ c ≠ '-' := by
  obtain ⟨fits, more, few⟩ := writable
  induction n using Nat.strong_induction_on with
  | _ n ih =>
      have positive : 0 < base := by omega
      have abs : labs n = n := labs_of_fits fits (by omega)
      have good : ¬((base : Int) > 36 ∨ (base : Int) < 2) := by omega
      have plain : ¬((n : Int) < 0) := by omega
      have quot : (n : Int).tdiv base = (n / base : Nat) := rfl
      have rem : (n : Int).tmod base = (n % base : Nat) := rfl
      obtain ⟨c, index, value, other⟩ := digit_of_index (by omega) (Nat.mod_lt n positive)
      have unfolded (str_val : List Char) : append_long_to_string n base str_val =
          (if _more : ((n / base : Nat) : Int) > 0 then append_long_to_string (n / base : Nat) base str_val
            else .ok str_val).map fun str_val => str_val ++ [c] := by
        rw [append_long_to_string]
        simp only [dif_neg good, if_neg plain, abs, quot, rem, index]
        rfl
      by_cases more_ : n / base = 0
      · have none_ : ¬(((n / base : Nat) : Int) > 0) := by
          rw [more_]
          exact lt_irrefl _
        have last : n % base = n := Nat.mod_eq_of_lt ((Nat.div_eq_zero_iff_lt positive).mp more_)
        refine ⟨c, [], [n % base], fun str_val => ?_, .cons value .nil, ?_, other⟩
        · rw [unfolded, dif_neg none_]
          rfl
        · rw [last]
          simp [number]
      · have some_ : ((n / base : Nat) : Int) > 0 := Int.natCast_pos.mpr (Nat.pos_of_ne_zero more_)
        have less : n / base < n := Nat.div_lt_self (Nat.pos_of_ne_zero fun zero => more_ (by rw [zero, Nat.zero_div])) (by omega)
        have fits' : long.Fits (n / base : Nat) := by
          obtain ⟨least, bound⟩ := fits
          exact ⟨Int.le_trans (by decide) (Int.natCast_nonneg _), Int.lt_trans (Int.ofNat_lt.mpr less) bound⟩
        obtain ⟨c', rest, ds, front, all, value', other'⟩ := ih (n / base) less fits'
        refine ⟨c', rest ++ [c], ds ++ [n % base], fun str_val => ?_, ?_, ?_, other'⟩
        · rw [unfolded, dif_pos some_, front]
          exact congrArg Except.ok (List.append_assoc ..)
        · exact List.rel_append all (.cons value .nil)
        · rw [number_append, value', Nat.div_add_mod]

theorem readIn_plain {c : Char} (other : c ≠ '-') (rest : List Char) :
    readIn base (c :: rest) = (readNat base (c :: rest)).map fun n => (n : Int) := by
  unfold readIn
  split
  next same => exact absurd (List.cons.inj same).1 other
  next => rfl

/-- With a minus sign in front of what is written without one. -/
theorem append_negative {n : Nat} (positive : 0 < n) (fits : long.Fits n) (str_val : List Char) :
    append_long_to_string (-n : Int) base str_val = append_long_to_string n base (str_val ++ ['-']) := by
  have fits' : long.Fits (-n : Int) := by
    simp only [CType.Fits, CType.least, CType.bound, long, if_true, Nat.reduceSub] at fits ⊢
    omega
  have least : (-n : Int) ≠ -2 ^ 63 := by
    simp only [CType.Fits, CType.bound, long, if_true, Nat.reduceSub] at fits
    omega
  have abs : labs (-n : Int) = labs (n : Int) := by
    rw [labs_of_fits fits' least, labs_of_fits fits (by omega), Int.natAbs_neg]
  have negative : (-n : Int) < 0 := by omega
  have plain : ¬((n : Int) < 0) := by omega
  rw [append_long_to_string, append_long_to_string]
  simp only [if_pos negative, if_neg plain, abs]

end

/-- The least integer is its own absolute value, and its last digit is looked for in front of the array. -/
theorem append_least {base : Int} (more : 2 ≤ base) (few : base ≤ 36) (str_val : List Char) :
    append_long_to_string (-2 ^ 63) base str_val =
      (longDigit (-((2 ^ 63 : Int) % base))).map fun digit => str_val ++ ['-'] ++ [digit] := by
  have good : ¬(base > 36 ∨ base < 2) := by omega
  have quot : ¬(-2 ^ 63 : Int).tdiv base > 0 := by
    have back : 0 ≤ (2 ^ 63 : Int).tdiv base := Int.tdiv_nonneg (by decide) (by omega)
    rw [Int.neg_tdiv]
    omega
  have rem : (-2 ^ 63 : Int).tmod base = -((2 ^ 63 : Int) % base) := by
    rw [Int.neg_tmod, Int.tmod_eq_emod_of_nonneg (by decide)]
  rw [append_long_to_string]
  simp only [dif_neg good, labs_least, dif_neg quot, rem]
  rfl

/-- Every integer is read back but the least one. -/
theorem long_to_string_read_iff {val base : Int} (writable : Writable val base) (str_val : List Char) :
    (∃ text, append_long_to_string val base str_val = .ok (str_val ++ text) ∧ long_to_string val base = .ok text ∧
      readIn base.toNat text = some val) ↔ val ≠ -2 ^ 63 := by
  obtain ⟨fits, more, few⟩ := writable
  obtain ⟨base, rfl⟩ := Int.eq_ofNat_of_zero_le (by omega : 0 ≤ base)
  rw [Int.toNat_natCast]
  constructor
  · rintro ⟨text, -, written, read⟩ rfl
    rw [long_to_string, append_least more few] at written
    by_cases whole : (2 ^ 63 : Int) % base = 0
    · rw [whole] at written
      obtain rfl : ['-', '0'] = text := Except.ok.inj written
      have zero : Digits base ['0'] [0] := by
        have few' : base ≤ 36 := by omega
        have positive : 0 < base := by omega
        obtain ⟨c, index, value, -⟩ := digit_of_index few' positive
        cases index
        exact .cons value .nil
      have zero' : readIn base ['-', '0'] = some 0 := by
        simp only [readIn, readNat_of_digits zero (List.cons_ne_nil _ _)]
        rfl
      rw [zero'] at read
      cases read
    · have negative : -((2 ^ 63 : Int) % base) < 0 := by
        have nonneg := Int.emod_nonneg (2 ^ 63) (by omega : (base : Int) ≠ 0)
        omega
      rw [longDigit, if_pos negative] at written
      cases written
  · intro other
    by_cases negative : val < 0
    · obtain ⟨n, rfl⟩ : ∃ n : Nat, val = -n := ⟨val.natAbs, by omega⟩
      have fits' : long.Fits n := by
        simp only [CType.Fits, CType.least, CType.bound, long, if_true, Nat.reduceSub] at fits ⊢
        omega
      have positive : 0 < n := by omega
      have signed (str_val : List Char) : append_long_to_string (-n : Int) base str_val = _ :=
        append_negative positive fits' str_val
      obtain ⟨c, rest, ds, written, all, value, -⟩ := append_natural ⟨fits', more, few⟩
      refine ⟨'-' :: c :: rest, ?_, ?_, ?_⟩
      · rw [signed, written, List.append_assoc]
        rfl
      · rw [long_to_string, signed, written]
        rfl
      · simp only [readIn, readNat_of_digits all (List.cons_ne_nil _ _), value]
        rfl
    · obtain ⟨n, rfl⟩ := Int.eq_ofNat_of_zero_le (by omega : 0 ≤ val)
      obtain ⟨c, rest, ds, written, all, value, plain⟩ := append_natural ⟨fits, more, few⟩
      refine ⟨c :: rest, written str_val, written [], ?_⟩
      rw [readIn_plain plain, readNat_of_digits all (List.cons_ne_nil _ _), value]
      rfl

theorem hexadecimal_read : (∃ text, append_long_to_string (-255) 16 ['x'] = .ok ('x' :: text) ∧
    long_to_string (-255) 16 = .ok text ∧ readIn 16 text = some (-255)) ↔ (-255 : Int) ≠ -2 ^ 63 :=
  long_to_string_read_iff ⟨by decide, by decide, by decide⟩ ['x']

/-- Of the least integer there is only a minus sign and a zero in base 2. -/
theorem least_not_read : ¬∀ val base : Int, Writable val base →
    ∃ text, long_to_string val base = .ok text ∧ readIn base.toNat text = some val := by
  intro all
  obtain ⟨text, written, read⟩ := all (-2 ^ 63) 2 ⟨by decide, by decide, by decide⟩
  rw [long_to_string, append_least (by decide) (by decide)] at written
  obtain rfl : ['-', '0'] = text := Except.ok.inj written
  revert read
  decide

end Libdap.Util
