import Libdap.Dap4.Filter
import Mathlib.Data.List.Forall2

/-! # Texts of integers

Which texts stand for an integer when the base is told by the text itself, and that those are the ones
that `strtoll` and `strtoull` read to their end.
-/

namespace Libdap.Dap4

open Numeral

def Digits (base : Nat) (cs : List Char) (ds : List Nat) : Prop := List.Forall₂ (fun c d => digit base c = some d) cs ds

def number (base : Nat) (ds : List Nat) : Nat := ds.foldl (fun n d => base * n + d) 0

/-- An integer without a sign. -/
inductive Literal : List Char → Nat → Prop
  | decimal {c : Char} {cs : List Char} {ds : List Nat} : c ≠ '0' → Digits 10 (c :: cs) ds → Literal (c :: cs) (number 10 ds)
  | octal {cs : List Char} {ds : List Nat} : Digits 8 cs ds → Literal ('0' :: cs) (number 8 ds)
  | hexadecimal {x c : Char} {cs : List Char} {ds : List Nat} :
      x = 'x' ∨ x = 'X' → Digits 16 (c :: cs) ds → Literal ('0' :: x :: c :: cs) (number 16 ds)

/-- Blanks, a sign or none, and an integer. -/
def Denotes (s : List Char) (minus : Bool) (n : Nat) : Prop :=
  ∃ blanks sign word, s = blanks ++ (sign ++ word) ∧ (∀ c ∈ blanks, isspace c = true) ∧
    (if minus then sign = ['-'] else sign = [] ∨ sign = ['+']) ∧ Literal word n

def signed (minus : Bool) (n : Nat) : Int := if minus then -n else n

section

variable {base n : Nat} {cs word s : List Char} {ds : List Nat} {minus : Bool}

theorem digits_eq_iff : digits base cs = (ds, []) ↔ Digits base cs ds := by
  induction cs generalizing ds with
  | nil =>
      rw [digits, Digits, List.forall₂_nil_left_iff, Prod.mk.injEq]
      exact ⟨fun both => both.1.symm, fun none_ => ⟨none_.symm, rfl⟩⟩
  | cons c cs ih =>
      rw [digits, Digits]
      cases first : digit base c with
      | none =>
          apply iff_of_false
          · intro same
            cases congrArg Prod.snd same
          · intro all
            rcases all with _ | ⟨one, -⟩
            rw [first] at one
            cases one
      | some d =>
          constructor
          · intro same
            obtain ⟨front, none_⟩ := Prod.mk.inj same
            rw [← front]
            exact .cons first (ih.mp (Prod.ext rfl none_))
          · intro all
            rcases all with _ | ⟨one, rest⟩
            obtain rfl := Option.some.inj (first.symm.trans one)
            rw [ih.mpr rest]

theorem digit_ten {c : Char} {d : Nat} (some_ : digit 10 c = some d) : '0' ≤ c ∧ c ≤ '9' := by
  by_contra other
  simp only [digit, if_neg other] at some_
  split_ifs at some_ <;> omega

/-- A literal starts with a decimal digit. -/
theorem Literal.head (literal : Literal word n) : ∃ c cs, word = c :: cs ∧ '0' ≤ c ∧ c ≤ '9' := by
  cases literal with
  | @decimal c cs ds other all =>
      rcases all with _ | ⟨one, -⟩
      exact ⟨c, cs, rfl, digit_ten one⟩
  | octal all => exact ⟨'0', _, rfl, by decide⟩
  | hexadecimal mark all => exact ⟨'0', _, rfl, by decide⟩

/-- What `Numeral.base` makes of a text is a literal when all of it are digits. -/
theorem literal_of_base {b : Nat} (found : Numeral.base word = (b, cs)) (all : Digits b cs ds) (some_ : ds ≠ []) :
    Literal word (number b ds) := by
  unfold Numeral.base at found
  split at found
  · rename_i x c rest
    split at found
    · rename_i mark
      cases found
      exact .hexadecimal mark.1 all
    · cases found
      rcases all with _ | ⟨one, rest⟩
      obtain rfl := Option.some.inj (one.symm.trans (by decide : digit 8 '0' = some 0))
      have literal := Literal.octal rest
      exact literal
  · cases found
    rcases all with _ | ⟨one, rest⟩
    obtain rfl := Option.some.inj (one.symm.trans (by decide : digit 8 '0' = some 0))
    have literal := Literal.octal rest
    exact literal
  · rename_i other
    cases found
    rcases all with _ | ⟨one, rest⟩
    · exact absurd rfl some_
    · exact .decimal (by rintro rfl; exact other _ rfl) (.cons one rest)

theorem Literal.read_base (literal : Literal word n) :
    ∃ b cs ds, Numeral.base word = (b, cs) ∧ Digits b cs ds ∧ ds ≠ [] ∧ n = number b ds := by
  cases literal with
  | @decimal c cs ds other all =>
      refine ⟨10, c :: cs, ds, ?_, all, ?_, rfl⟩
      · unfold Numeral.base
        split
        · rename_i same
          exact absurd (List.cons.inj same).1 other
        · rename_i same
          exact absurd (List.cons.inj same).1 other
        · rfl
      · rintro rfl
        cases all
  | @octal cs ds all =>
      have zero : Digits 8 ('0' :: cs) (0 :: ds) := .cons (by decide) all
      refine ⟨8, '0' :: cs, 0 :: ds, ?_, zero, List.cons_ne_nil _ _, rfl⟩
      rcases all with _ | ⟨one, rest⟩
      · rfl
      · rename_i x d cs ds
        cases rest with
        | nil => rfl
        | @cons c _ cs _ _ _ =>
            have plain : ¬((x = 'x' ∨ x = 'X') ∧ (digit 16 c).isSome = true) := by
              have none_ : digit 8 'x' = none ∧ digit 8 'X' = none := by decide
              rintro ⟨rfl | rfl, -⟩
              · rw [none_.1] at one
                cases one
              · rw [none_.2] at one
                cases one
            exact if_neg plain
  | @hexadecimal x c cs ds mark all =>
      refine ⟨16, c :: cs, ds, ?_, all, ?_, rfl⟩
      · rcases all with _ | ⟨one, -⟩
        exact if_pos ⟨mark, by rw [one]; rfl⟩
      · rintro rfl
        cases all

theorem plain_digit {c : Char} (low : '0' ≤ c) (high : c ≤ '9') : isspace c = false ∧ c ≠ '-' ∧ c ≠ '+' := by
  have low : 48 ≤ c.toNat := low
  have high : c.toNat ≤ 57 := high
  refine ⟨?_, ?_, ?_⟩
  · simp only [isspace, Bool.or_eq_false_iff, decide_eq_false_iff_not, Bool.and_eq_false_iff]
    refine ⟨?_, by omega⟩
    rintro rfl
    exact absurd low (by decide)
  · rintro rfl
    exact absurd low (by decide)
  · rintro rfl
    exact absurd low (by decide)

theorem sign_plain {c : Char} (minus : c ≠ '-') (plus : c ≠ '+') (cs : List Char) : Numeral.sign (c :: cs) = (false, c :: cs) := by
  unfold Numeral.sign
  split
  · rename_i same
    exact absurd (List.cons.inj same).1 minus
  · rename_i same
    exact absurd (List.cons.inj same).1 plus
  · rfl

theorem read_of_parts {front rest : List Char} {b : Nat} (left : s.dropWhile isspace = front)
    (signs : Numeral.sign front = (minus, word)) (base : Numeral.base word = (b, rest)) (all : Digits b rest ds)
    (some_ : ds ≠ []) : Numeral.read s = some ⟨minus, number b ds, []⟩ := by
  unfold Numeral.read
  rw [left, signs]
  simp only [base, digits_eq_iff.mpr all]
  cases ds with
  | nil => exact absurd rfl some_
  | cons d ds => rfl

/-- A text that stands for an integer is read to its end. -/
theorem read_of_denotes (denotes : Denotes s minus n) : Numeral.read s = some ⟨minus, n, []⟩ ∧
    ((s.dropWhile isspace).head? = some '-' ↔ minus = true) := by
  obtain ⟨blanks, sign, word, rfl, spaces, signs, literal⟩ := denotes
  obtain ⟨c, cs, rfl, low, high⟩ := literal.head
  obtain ⟨blank, no_minus, no_plus⟩ := plain_digit low high
  obtain ⟨b, rest, ds, base, all, some_, rfl⟩ := literal.read_base
  have left (front : List Char) : (blanks ++ front).dropWhile isspace = front.dropWhile isspace :=
    List.dropWhile_append_of_pos spaces
  cases minus with
  | true =>
      obtain rfl : sign = ['-'] := signs
      have left : (blanks ++ (['-'] ++ c :: cs)).dropWhile isspace = '-' :: c :: cs := left _
      exact ⟨read_of_parts left rfl base all some_, by rw [left]; exact iff_of_true rfl rfl⟩
  | false =>
      rcases signs with rfl | rfl
      · have left : (blanks ++ ([] ++ c :: cs)).dropWhile isspace = c :: cs :=
          (left _).trans (List.dropWhile_cons_of_neg (Bool.eq_false_iff.mp blank))
        refine ⟨read_of_parts left (sign_plain no_minus no_plus cs) base all some_, ?_⟩
        rw [left]
        exact iff_of_false (fun same => no_minus (Option.some.inj same)) Bool.false_ne_true
      · have left : (blanks ++ (['+'] ++ c :: cs)).dropWhile isspace = '+' :: c :: cs := left _
        refine ⟨read_of_parts left rfl base all some_, ?_⟩
        rw [left]
        exact iff_of_false (fun same => absurd (Option.some.inj same) (by decide)) Bool.false_ne_true

theorem sign_cases (front : List Char) : ∃ sign, front = sign ++ (Numeral.sign front).2 ∧
    (if (Numeral.sign front).1 then sign = ['-'] else sign = [] ∨ sign = ['+']) := by
  unfold Numeral.sign
  split
  · exact ⟨['-'], rfl, rfl⟩
  · exact ⟨['+'], rfl, .inr rfl⟩
  · exact ⟨[], rfl, .inl rfl⟩

/-- A text that is read to its end stands for an integer. -/
theorem denotes_of_read (read : Numeral.read s = some ⟨minus, n, []⟩) : Denotes s minus n := by
  have whole : s = s.takeWhile isspace ++ s.dropWhile isspace := List.takeWhile_append_dropWhile.symm
  obtain ⟨sign, front, signs⟩ := sign_cases (s.dropWhile isspace)
  simp only [Numeral.read] at read
  cases base : Numeral.base (Numeral.sign (s.dropWhile isspace)).2 with
  | mk b rest =>
      rw [base] at read
      simp only at read
      cases all : digits b rest with
      | mk ds left =>
          rw [all] at read
          cases ds with
          | nil => cases read
          | cons d ds =>
              simp only [Option.some.injEq, Numeral.mk.injEq] at read
              obtain ⟨negative, value, rfl⟩ := read
              have literal := literal_of_base base (digits_eq_iff.mp all) (List.cons_ne_nil d ds)
              rw [negative] at signs
              refine ⟨_, sign, _, whole.trans (congrArg _ front), List.all_eq_true.mp List.all_takeWhile, signs, ?_⟩
              rw [← value]
              exact literal

theorem read_iff_denotes : Numeral.read s = some ⟨minus, n, []⟩ ↔ Denotes s minus n :=
  ⟨denotes_of_read, fun denotes => (read_of_denotes denotes).1⟩

theorem Denotes.unique (one : Denotes s minus n) {minus' : Bool} {n' : Nat} (two : Denotes s minus' n') :
    minus = minus' ∧ n = n' := by
  have same := (read_of_denotes one).1.symm.trans (read_of_denotes two).1
  injection same with same
  exact ⟨congrArg Numeral.negative same, congrArg Numeral.magnitude same⟩

end

end Libdap.Dap4
