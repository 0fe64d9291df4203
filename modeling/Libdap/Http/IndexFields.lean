import Libdap.Http.Lines
import Libdap.Http.Residents

/-! # The fields of an index line

What `>>` makes of the fields of a line: a word, a number and a flag come back when a blank
follows them. A line has words enough for the three strings of an entry, whatever these are.
-/

namespace Libdap.Http

open Ints Dap4

/-- A string that is one word of a line. -/
def IsWord (text : Text) : Prop := text ≠ [] ∧ ∀ ch ∈ text, isspace ch = false ∧ ch ≠ '\x00'

instance (text : Text) : Decidable (IsWord text) :=
  @instDecidableAnd _ _ inferInstance (List.decidableBAll (fun ch : Char => isspace ch = false ∧ ch ≠ '\x00') text)

def FitsLong (n : Int) : Prop := -2 ^ 63 ≤ n ∧ n < 2 ^ 63

namespace Iss

theorem dropWhile_of_first {ch : Char} {rest : Text} (first : isspace ch = false) :
    (ch :: rest).dropWhile isspace = ch :: rest := by
  rw [List.dropWhile_cons, first]
  rfl

theorem word_read {old text w rest : Text} {ch : Char} (isWord : IsWord w) (space : isspace ch = true)
    (start : text.dropWhile isspace = w ++ ch :: rest) : word old ⟨text, false⟩ = (w, ⟨ch :: rest, false⟩) := by
  obtain ⟨c, cs, rfl⟩ := List.exists_cons_of_ne_nil isWord.1
  have inside : ∀ x ∈ c :: cs, (!isspace x) = true := fun x mem => by rw [(isWord.2 x mem).1]; rfl
  have taken : (c :: cs ++ ch :: rest).takeWhile (fun ch => !isspace ch) = c :: cs := by
    rw [List.takeWhile_append_of_pos inside, List.takeWhile_cons, space]
    exact List.append_nil _
  have left : (c :: cs ++ ch :: rest).dropWhile (fun ch => !isspace ch) = ch :: rest := by
    rw [List.dropWhile_append_of_pos inside, List.dropWhile_cons, space]
    rfl
  simp only [word, start, Bool.false_eq_true, ↓reduceIte]
  change ((c :: cs ++ ch :: rest).takeWhile (fun ch => !isspace ch),
    Iss.mk ((c :: cs ++ ch :: rest).dropWhile fun ch => !isspace ch) false) = _
  rw [taken, left]

/-- A number as it is printed: no blank in front, and its digits end where they do. -/
theorem showInt_cases (n : Int) : (∃ ch digits, showInt n = ch :: digits ∧ isspace ch = false) ∧
    ∀ rest, (∀ ch more, rest = ch :: more → ch.isDigit = false) →
      numeral (showInt n ++ rest) = (decide (n < 0), Nat.toDigits 10 n.natAbs, rest) := by
  have digits : ∀ ch ∈ Nat.toDigits 10 n.natAbs, ch.isDigit = true :=
    fun ch mem => Nat.isDigit_of_mem_toDigits (by decide) (by decide) mem
  obtain ⟨first, others, shown⟩ := List.exists_cons_of_ne_nil (@Nat.toDigits_ne_nil n.natAbs 10)
  have isDigit : first.isDigit = true := digits first (shown ▸ List.mem_cons_self)
  have ends : ∀ rest : Text, (∀ ch more, rest = ch :: more → ch.isDigit = false) →
      (Nat.toDigits 10 n.natAbs ++ rest).takeWhile Char.isDigit = Nat.toDigits 10 n.natAbs ∧
        (Nat.toDigits 10 n.natAbs ++ rest).dropWhile Char.isDigit = rest := by
    intro rest other
    rw [List.takeWhile_append_of_pos digits, List.dropWhile_append_of_pos digits]
    cases rest with
    | nil => exact ⟨List.append_nil _, rfl⟩
    | cons ch more =>
      rw [List.takeWhile_cons, List.dropWhile_cons, other ch more rfl]
      exact ⟨List.append_nil _, rfl⟩
  have plain : isspace first = false ∧ first ≠ '-' ∧ first ≠ '+' := by
    rw [Char.isDigit_iff_toNat] at isDigit
    have code : ∀ c : Char, c.toNat < 48 → first ≠ c := by
      intro c small same
      subst same
      exact absurd isDigit.1 (Nat.not_le.mpr small)
    refine ⟨?_, code '-' (by decide), code '+' (by decide)⟩
    have blank := code ' ' (by decide)
    simp only [isspace, Numeral.isspace, blank, decide_false, Bool.false_or, Bool.and_eq_false_iff,
      decide_eq_false_iff_not]
    exact .inr (by have low : 48 ≤ first.toNat := isDigit.1; omega)
  by_cases negative : n < 0
  · have shows : showInt n = '-' :: Nat.toDigits 10 n.natAbs := if_pos negative
    refine ⟨⟨_, _, shows, by decide⟩, fun rest other => ?_⟩
    obtain ⟨taken, left⟩ := ends rest other
    rw [shows, decide_eq_true negative, List.cons_append, numeral]
    simp only [Numeral.sign, taken, left]
  · have shows : showInt n = Nat.toDigits 10 n.natAbs := if_neg negative
    refine ⟨⟨first, others, shows.trans shown, plain.1⟩, fun rest other => ?_⟩
    obtain ⟨taken, left⟩ := ends rest other
    have unsigned : Numeral.sign (Nat.toDigits 10 n.natAbs ++ rest) = (false, Nat.toDigits 10 n.natAbs ++ rest) := by
      rw [shown, List.cons_append]
      unfold Numeral.sign
      split
      · rename_i same
        exact absurd (List.cons.inj same).1 plain.2.1
      · rename_i same
        exact absurd (List.cons.inj same).1 plain.2.2
      · rfl
    rw [shows, decide_eq_false negative, numeral, unsigned]
    simp only [taken, left]

section

variable {n : Int} {ch : Char} {rest : Text} (other : ch.isDigit = false)

include other

theorem blank_showInt : (' ' :: (showInt n ++ ch :: rest)).dropWhile isspace = showInt n ++ ch :: rest ∧
    ∃ c cs, showInt n ++ ch :: rest = c :: cs ∧ numeral (c :: cs) = (decide (n < 0), Nat.toDigits 10 n.natAbs, ch :: rest) := by
  obtain ⟨⟨c, cs, shows, first⟩, reads⟩ := showInt_cases n
  have read := reads (ch :: rest) fun c more same => (List.cons.inj same).1 ▸ other
  refine ⟨?_, c, cs ++ ch :: rest, by rw [shows]; rfl, by rw [← List.cons_append, ← shows, read]⟩
  rw [shows, List.dropWhile_cons]
  exact dropWhile_of_first first

theorem integer_read {least greatest old : Int} (low : least ≤ n) (high : n ≤ greatest) :
    integer least greatest old ⟨' ' :: (showInt n ++ ch :: rest), false⟩ = (n, ⟨ch :: rest, false⟩) := by
  obtain ⟨start, c, cs, first, read⟩ := @blank_showInt n ch rest other
  obtain ⟨digit, digits, shown⟩ := List.exists_cons_of_ne_nil (@Nat.toDigits_ne_nil n.natAbs 10)
  have magnitude : (Nat.ofDigitChars 10 (digit :: digits) 0 : Int) = n.natAbs := by
    rw [← shown, Nat.ofDigitChars_ten_toDigits]
  rw [shown] at read
  have value : (if decide (n < 0) = true then -(n.natAbs : Int) else n.natAbs) = n := by
    split
    · rename_i negative
      rw [decide_eq_true_iff] at negative
      omega
    · rename_i positive
      rw [decide_eq_true_iff] at positive
      omega
  rw [first] at start ⊢
  simp only [integer, start, read, magnitude, value, Bool.false_eq_true, ↓reduceIte]
  rw [if_neg (by omega), if_neg (by omega)]

theorem long_read {old : Int} (fits : FitsLong n) :
    long old ⟨' ' :: (showInt n ++ ch :: rest), false⟩ = (n, ⟨ch :: rest, false⟩) :=
  integer_read other fits.1 (by have := fits.2; omega)

theorem int_read {old : Int} (fits : FitsI32 n) :
    int old ⟨' ' :: (showInt n ++ ch :: rest), false⟩ = (n, ⟨ch :: rest, false⟩) :=
  integer_read other fits.1 (by have := fits.2; omega)

/-- A size above the greatest `long` is printed as a negative number, and is read back all the same. -/
theorem unsignedLong_read {size old : Nat} (fits : size < 2 ^ 64) :
    unsignedLong old ⟨' ' :: (showInt (i64 size) ++ ch :: rest), false⟩ = (size, ⟨ch :: rest, false⟩) := by
  obtain ⟨start, c, cs, first, read⟩ := @blank_showInt (i64 size) ch rest other
  obtain ⟨digit, digits, shown⟩ := List.exists_cons_of_ne_nil (@Nat.toDigits_ne_nil (i64 size).natAbs 10)
  have magnitude : Nat.ofDigitChars 10 (digit :: digits) 0 = (i64 size).natAbs := by
    rw [← shown, Nat.ofDigitChars_ten_toDigits]
  rw [shown] at read
  have small : ¬2 ^ 64 ≤ (i64 size).natAbs := by
    unfold i64
    omega
  have value : u64 (if decide (i64 size < 0) = true then -((i64 size).natAbs : Int) else (i64 size).natAbs) = size := by
    split
    · rename_i negative
      rw [decide_eq_true_iff] at negative
      unfold u64
      unfold i64 at negative ⊢
      omega
    · rename_i positive
      rw [decide_eq_true_iff] at positive
      unfold u64
      unfold i64 at positive ⊢
      omega
  rw [first] at start ⊢
  simp only [unsignedLong, start, read, magnitude, value, small, Bool.false_eq_true, ↓reduceIte]

theorem flag_read {flag old : Bool} :
    Iss.flag old ⟨' ' :: (showFlag flag ++ ch :: rest), false⟩ = (flag, ⟨ch :: rest, false⟩) := by
  have shows : showFlag flag = showInt (if flag then 1 else 0) := by
    cases flag with
    | true => rfl
    | false => rfl
  have read := @long_read (if flag then 1 else 0) ch rest other (if old then 1 else 0)
    (by cases flag <;> exact ⟨by decide, by decide⟩)
  rw [Iss.flag, shows, read]
  cases flag with
  | true => rfl
  | false => rfl

end

end Iss

/-- The text has so many words. -/
def HasWords : Nat → Text → Prop
  | 0, _ => True
  | n + 1, text => ∃ ch rest, text.dropWhile isspace = ch :: rest ∧
      HasWords n ((ch :: rest).dropWhile fun ch => !isspace ch)

namespace HasWords

theorem of_succ {n : Nat} {text : Text} (words : HasWords (n + 1) text) : HasWords n text := by
  induction n generalizing text with
  | zero => trivial
  | succ n ih =>
    obtain ⟨ch, rest, start, more⟩ := words
    exact ⟨ch, rest, start, ih more⟩

/-- Words behind a blank are words of the whole. -/
theorem behind {n : Nat} {text : Text} (words : HasWords n text) (front : Text) : HasWords n (front ++ ' ' :: text) := by
  induction h : front.length using Nat.strong_induction_on generalizing front with
  | _ len ih =>
    cases start : front.dropWhile isspace with
    | nil =>
      have blanks : (front ++ ' ' :: text).dropWhile isspace = text.dropWhile isspace := by
        rw [List.dropWhile_append, start]
        rfl
      cases n with
      | zero => trivial
      | succ n =>
        obtain ⟨ch, rest, first, more⟩ := words
        exact ⟨ch, rest, blanks.trans first, more⟩
    | cons ch rest =>
      have split : (front ++ ' ' :: text).dropWhile isspace = ch :: (rest ++ ' ' :: text) := by
        rw [List.dropWhile_append, start]
        rfl
      have word : isspace ch = false := by
        have kept := List.head?_dropWhile_not isspace front
        rw [start] at kept
        simpa using kept
      have behind_ : (ch :: (rest ++ ' ' :: text)).dropWhile (fun ch => !isspace ch) =
          rest.dropWhile (fun ch => !isspace ch) ++ ' ' :: text := by
        rw [List.dropWhile_cons, word]
        simp only [Bool.not_false, ↓reduceIte]
        rw [List.dropWhile_append]
        split
        · rename_i none_
          rw [List.isEmpty_iff.mp none_]
          rfl
        · rfl
      apply of_succ
      refine ⟨ch, _, split, ?_⟩
      rw [behind_]
      apply ih _ _ _ rfl
      have less := (List.dropWhile_sublist (l := rest) fun ch => !isspace ch).length_le
      have part := (List.dropWhile_sublist (l := front) isspace).length_le
      rw [start, List.length_cons] at part
      omega

/-- A word, a blank and so many words. -/
theorem cons {n : Nat} {ch : Char} {w text : Text} (first : isspace ch = false) (words : HasWords n text) :
    HasWords (n + 1) (ch :: w ++ ' ' :: text) := by
  refine ⟨ch, w ++ ' ' :: text, Iss.dropWhile_of_first first, ?_⟩
  have split : (ch :: (w ++ ' ' :: text)).dropWhile (fun ch => !isspace ch) =
      w.dropWhile (fun ch => !isspace ch) ++ ' ' :: text := by
    rw [List.dropWhile_cons, first]
    simp only [Bool.not_false, ↓reduceIte]
    rw [List.dropWhile_append]
    split
    · rename_i none_
      rw [List.isEmpty_iff.mp none_]
      rfl
    · rfl
  rw [split]
  exact words.behind _

end HasWords

end Libdap.Http
