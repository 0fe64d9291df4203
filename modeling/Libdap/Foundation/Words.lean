import Mathlib.Tactic.Ring
import Mathlib.Tactic.NormNum

/-! # Words as octets

A word of `w` octets is written least or most significant octet first. The two
orders are reversals of each other, so swapping the octets of a word is reading
it in the order it was not written in. Nothing here knows what the words mean.
-/

namespace Libdap.Words

/-- The two orders in which a host or a protocol lays out a word. -/
inductive ByteOrder where
  | little
  | big
  deriving Repr, DecidableEq

/-- The `w` low octets of `n`, least significant first. -/
def ascending : Nat → Nat → List UInt8
  | 0, _ => []
  | w + 1, n => UInt8.ofNat n :: ascending w (n / 256)

/-- The number whose octets are `bs`, least significant first. -/
def fromAscending : List UInt8 → Nat
  | [] => 0
  | b :: bs => fromAscending bs * 256 + b.toNat

@[simp]
theorem length_ascending (w n : Nat) : (ascending w n).length = w := by
  induction w generalizing n with
  | zero => rfl
  | succ w ih => simp only [ascending, List.length_cons, ih]

theorem fromAscending_ascending (w n : Nat) : fromAscending (ascending w n) = n % 256 ^ w := by
  induction w generalizing n with
  | zero => simp [ascending, fromAscending, Nat.mod_one]
  | succ w ih =>
      have low : (UInt8.ofNat n).toNat = n % 256 := by simp
      rw [ascending, fromAscending, ih, low, pow_succ', Nat.mod_mul]
      ring

theorem fromAscending_lt (bs : List UInt8) : fromAscending bs < 256 ^ bs.length := by
  induction bs with
  | nil => simp [fromAscending]
  | cons b bs ih =>
      have small : b.toNat < 256 := b.toNat_lt
      rw [fromAscending, List.length_cons, pow_succ]
      omega

theorem ascending_fromAscending (bs : List UInt8) :
    ascending bs.length (fromAscending bs) = bs := by
  induction bs with
  | nil => rfl
  | cons b bs ih =>
      have small : b.toNat < 256 := b.toNat_lt
      have high : (fromAscending bs * 256 + b.toNat) / 256 = fromAscending bs := by omega
      have low : UInt8.ofNat (fromAscending bs * 256 + b.toNat) = b := by
        apply UInt8.toNat_inj.mp
        rw [UInt8.toNat_ofNat']
        omega
      rw [List.length_cons, fromAscending, ascending, high, ih, low]

/-- The octets of the word `n` in the order `o`. -/
def octets (o : ByteOrder) (w n : Nat) : List UInt8 :=
  match o with
  | .little => ascending w n
  | .big => (ascending w n).reverse

/-- The word that `bs` spells in the order `o`. -/
def word (o : ByteOrder) (bs : List UInt8) : Nat :=
  match o with
  | .little => fromAscending bs
  | .big => fromAscending bs.reverse

@[simp]
theorem length_octets (o : ByteOrder) (w n : Nat) : (octets o w n).length = w := by
  cases o <;> simp [octets]

theorem word_octets (o : ByteOrder) (w n : Nat) : word o (octets o w n) = n % 256 ^ w := by
  cases o <;> simp [octets, word, fromAscending_ascending]

theorem word_octets_of_lt (o : ByteOrder) {w n : Nat} (small : n < 256 ^ w) :
    word o (octets o w n) = n := by
  rw [word_octets, Nat.mod_eq_of_lt small]

theorem word_lt (o : ByteOrder) (bs : List UInt8) : word o bs < 256 ^ bs.length := by
  cases o with
  | little => exact fromAscending_lt bs
  | big => simpa only [word, List.length_reverse] using fromAscending_lt bs.reverse

theorem octets_word (o : ByteOrder) (bs : List UInt8) : octets o bs.length (word o bs) = bs := by
  cases o with
  | little => exact ascending_fromAscending bs
  | big =>
      have spelled := ascending_fromAscending bs.reverse
      rw [List.length_reverse] at spelled
      simp only [octets, word, spelled, List.reverse_reverse]

/-- Only the low octets of a number are written. -/
theorem octets_mod (o : ByteOrder) (w n : Nat) : octets o w (n % 256 ^ w) = octets o w n := by
  have spelled := octets_word o (octets o w n)
  rwa [length_octets, word_octets] at spelled

/-- The word with the octets of `n` in reverse. -/
def swap (w n : Nat) : Nat := fromAscending (ascending w n).reverse

theorem swap_lt (w n : Nat) : swap w n < 256 ^ w := by
  simpa only [swap, List.length_reverse, length_ascending] using
    fromAscending_lt (ascending w n).reverse

/-- Reading a word in the other order swaps it. -/
theorem word_octets_of_ne {o o' : ByteOrder} (differ : o ≠ o') (w n : Nat) :
    word o' (octets o w n) = swap w n := by
  cases o <;> cases o' <;> simp_all [octets, word, swap]

theorem swap_swap {w n : Nat} (small : n < 256 ^ w) : swap w (swap w n) = n := by
  have back := ascending_fromAscending (ascending w n).reverse
  rw [List.length_reverse, length_ascending] at back
  simp only [swap, back, List.reverse_reverse, fromAscending_ascending, Nat.mod_eq_of_lt small]

@[simp]
theorem swap_zero (w : Nat) : swap w 0 = 0 := by
  have zeros : ascending w 0 = List.replicate w 0 := by
    induction w with
    | zero => rfl
    | succ w ih => simp [ascending, List.replicate_succ, ih]
  have sum : ∀ k, fromAscending (List.replicate k 0) = 0 := by
    intro k
    induction k with
    | zero => rfl
    | succ k ih => simp [List.replicate_succ, fromAscending, ih]
  rw [swap, zeros, List.reverse_replicate, sum]

example : octets .big 4 0x01000005 = [1, 0, 0, 5] := by decide

example : swap 4 0x01000005 = 0x05000001 := by decide

end Libdap.Words
