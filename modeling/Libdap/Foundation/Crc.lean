import Mathlib.Tactic.Common

/-! # Cyclic redundancy checks

A register is shifted out bit by bit, and the polynomial is added to it for every bit that is set. The
register is reflected: the bit that leaves is the lowest one. All of this is linear, so that an octet can
be taken at once with what it alone makes of an empty register.
-/

namespace Libdap.Crc

variable {w : Nat} (poly : BitVec w)

def bit (c : BitVec w) : BitVec w := (c >>> 1) ^^^ if c.getLsbD 0 then poly else 0#w

def bits : Nat → BitVec w → BitVec w
  | 0, c => c
  | n + 1, c => bits n (bit poly c)

/-- An octet is added to the register before it is shifted out. -/
def octet (c : BitVec w) (b : BitVec 8) : BitVec w := bits poly 8 (c ^^^ b.setWidth w)

theorem bit_xor (c d : BitVec w) : bit poly (c ^^^ d) = bit poly c ^^^ bit poly d := by
  rw [bit, bit, bit, BitVec.getLsbD_xor, BitVec.ushiftRight_xor_distrib]
  cases c.getLsbD 0 with
  | false => simp only [Bool.false_xor, Bool.false_eq_true, if_false, BitVec.xor_zero, BitVec.xor_assoc]
  | true =>
      cases d.getLsbD 0 with
      | false =>
          simp only [Bool.xor_false, if_true, Bool.false_eq_true, if_false, BitVec.xor_zero]
          ac_rfl
      | true =>
          have twice : poly ^^^ poly = 0#w := BitVec.xor_self
          have moved : c >>> 1 ^^^ poly ^^^ (d >>> 1 ^^^ poly) = c >>> 1 ^^^ d >>> 1 ^^^ (poly ^^^ poly) := by ac_rfl
          simp only [Bool.xor_self, if_true, Bool.false_eq_true, if_false]
          rw [moved, twice]

theorem bits_xor (n : Nat) (c d : BitVec w) : bits poly n (c ^^^ d) = bits poly n c ^^^ bits poly n d := by
  induction n generalizing c d with
  | zero => rfl
  | succ n ih => rw [bits, bits, bits, bit_xor, ih]

/-- Bits that are not set only go away. -/
theorem bits_of_low {n : Nat} {c : BitVec w} (low : ∀ i < n, c.getLsbD i = false) : bits poly n c = c >>> n := by
  induction n generalizing c with
  | zero => rw [bits, BitVec.ushiftRight_zero]
  | succ n ih =>
      have shifted : bit poly c = c >>> 1 := by
        rw [bit, low 0 (Nat.zero_lt_succ n)]
        exact BitVec.xor_zero
      rw [bits, shifted, ih, ← BitVec.shiftRight_add, Nat.add_comm]
      intro i less
      rw [BitVec.getLsbD_ushiftRight]
      exact low (1 + i) (by omega)

theorem getLsbD_octet (i : Nat) : (255#w).getLsbD i = (decide (i < w) && decide (i < 8)) := by
  have ones : Nat.testBit 255 i = decide (i < 8) := Nat.testBit_two_pow_sub_one 8 i
  rw [BitVec.getLsbD_ofNat, ones]

/-- What a table of the octets is for. -/
theorem octet_eq (c : BitVec w) (b : BitVec 8) :
    octet poly c b = (c >>> 8) ^^^ bits poly 8 ((c ^^^ b.setWidth w) &&& 255#w) := by
  have split_ : c ^^^ b.setWidth w = ((c ^^^ b.setWidth w) &&& ~~~255#w) ^^^ ((c ^^^ b.setWidth w) &&& 255#w) := by
    apply BitVec.eq_of_getLsbD_eq
    intro i inside
    rw [BitVec.getLsbD_xor (x := _ &&& _), BitVec.getLsbD_and, BitVec.getLsbD_and, BitVec.getLsbD_not, getLsbD_octet]
    cases (c ^^^ b.setWidth w).getLsbD i <;> cases decide (i < 8) <;> simp [inside]
  have low : ∀ i < 8, ((c ^^^ b.setWidth w) &&& ~~~255#w).getLsbD i = false := by
    intro i less
    rw [BitVec.getLsbD_and, BitVec.getLsbD_not, getLsbD_octet, decide_eq_true less]
    cases decide (i < w) <;> simp
  have high : ((c ^^^ b.setWidth w) &&& ~~~255#w) >>> 8 = c >>> 8 := by
    apply BitVec.eq_of_getLsbD_eq
    intro i inside
    rw [BitVec.getLsbD_ushiftRight, BitVec.getLsbD_ushiftRight, BitVec.getLsbD_and, BitVec.getLsbD_not, getLsbD_octet,
      BitVec.getLsbD_xor, BitVec.getLsbD_setWidth, BitVec.getLsbD_of_ge b (8 + i) (by omega)]
    by_cases width : 8 + i < w
    · simp [width]
    · simp [width, BitVec.getLsbD_of_ge c (8 + i) (by omega)]
  rw [octet, split_, bits_xor, bits_of_low poly low, high, ← split_]

end Libdap.Crc
