import Libdap.Foundation.Ints
import Libdap.Foundation.Words
import Mathlib.Data.List.Basic
import Mathlib.Tactic.Common

/-! # The XDR primitives

What the marshallers use of an XDR library: the coders of single values, which turn
the memory of a value into four or eight octets and back, and the routines built on
them for opaque data, counted octets, strings and arrays, on streams in memory. The
coders are parameters with the laws that every such library keeps; the routines add
the count in front and the zeros up to a multiple of four behind.
-/

namespace Libdap.Marshal

open Ints Words

/-- The types that have a coder of their own. -/
inductive Scalar where
  | byte
  | int16
  | uint16
  | int32
  | uint32
  | float32
  | float64
  deriving Repr, DecidableEq

namespace Scalar

/-- The number of octets of a value in memory. -/
def width : Scalar → Nat
  | byte => 1
  | int16 | uint16 => 2
  | int32 | uint32 | float32 => 4
  | float64 => 8

/-- The number of octets of its encoding. -/
def units : Scalar → Nat
  | float64 => 8
  | byte | int16 | uint16 | int32 | uint32 | float32 => 4

theorem width_pos (t : Scalar) : 0 < t.width := by cases t <;> decide

end Scalar

/-- The memory of a value of a type. -/
structure Cell (t : Scalar) where
  octets : List UInt8
  length : octets.length = t.width
  deriving DecidableEq

namespace Xdr

/-- The coders of a library: `xdr_int`, `xdr_u_int`, and one for each type. -/
structure Library where
  int : Int → List UInt8
  intOf : List UInt8 → Int
  uInt : Nat → List UInt8
  uIntOf : List UInt8 → Nat
  coder : Scalar → List UInt8 → List UInt8
  coderOf : Scalar → List UInt8 → List UInt8
  length_int : ∀ x, (int x).length = 4
  intOf_int : ∀ {x}, FitsI32 x → intOf (int x) = x
  length_uInt : ∀ n, (uInt n).length = 4
  uIntOf_uInt : ∀ {n}, n < 2 ^ 32 → uIntOf (uInt n) = n
  uInt_eq_int : ∀ {n : Nat}, n < 2 ^ 31 → uInt n = int n
  length_coder : ∀ {t : Scalar} {m}, m.length = t.width → (coder t m).length = t.units
  coderOf_coder : ∀ {t : Scalar} {m}, m.length = t.width → coderOf t (coder t m) = m

attribute [simp] Library.length_int Library.length_uInt

/-- The number of octets up to the next multiple of four. -/
def pad (n : Nat) : Nat := (4 - n % 4) % 4

theorem pad_lt (n : Nat) : pad n < 4 := Nat.mod_lt _ (by decide)

theorem add_pad_mod (n : Nat) : (n + pad n) % 4 = 0 := by
  unfold pad
  omega

/-- `xdr_opaque`, encoding. -/
def xdrOpaque (m : List UInt8) : List UInt8 := m ++ List.replicate (pad m.length) 0

/-- `xdr_opaque`, decoding `cnt` octets. -/
def xdrOpaqueOf (cnt : Nat) (bs : List UInt8) : Option (List UInt8) :=
  if bs.length < cnt + pad cnt then none else some (bs.take cnt)

variable (lib : Library)

/-- `xdr_bytes`, encoding. -/
def xdrBytes (m : List UInt8) (maxsize : Nat) : Option (List UInt8) :=
  if maxsize < m.length then none else some (lib.uInt m.length ++ xdrOpaque m)

/-- `xdr_bytes`, decoding. -/
def xdrBytesOf (maxsize : Nat) (bs : List UInt8) : Option (List UInt8) :=
  if bs.length < 4 then none
  else if maxsize < lib.uIntOf (bs.take 4) then none
  else xdrOpaqueOf (lib.uIntOf (bs.take 4)) (bs.drop 4)

/-- `xdr_string`, encoding: the characters up to the first NUL. -/
def xdrString (str : List UInt8) (maxsize : Nat) : Option (List UInt8) :=
  xdrBytes lib (str.takeWhile (· != 0)) maxsize

/-- `xdr_string`, decoding into new memory, as the characters that a C string ends up
    with. -/
def xdrStringOf (maxsize : Nat) (bs : List UInt8) : Option (List UInt8) :=
  (xdrBytesOf lib maxsize bs).map (List.takeWhile (· != 0))

/-- `xdr_array`, encoding elements that lie one after the other. -/
def xdrArray (t : Scalar) (cells : List (Cell t)) (maxsize : Nat) : Option (List UInt8) :=
  if maxsize < cells.length then none
  else some (lib.uInt cells.length ++ cells.flatMap fun cell => lib.coder t cell.octets)

/-- Store octets in a caller's memory, which must have room for them. -/
def store (mem : List UInt8) (offset : Nat) (m : List UInt8) : Option (List UInt8) :=
  if mem.length < offset + m.length then none
  else some (mem.take offset ++ m ++ mem.drop (offset + m.length))

/-- The loop of `xdr_array`, decoding: `n` elements, each `stride` octets after the
    one before it. -/
def fill (t : Scalar) (stride : Nat) : Nat → Nat → List UInt8 → List UInt8 → Option (List UInt8)
  | 0, _, _, mem => some mem
  | n + 1, offset, bs, mem =>
      if bs.length < t.units then none
      else do
        let stored ← store mem offset (lib.coderOf t (bs.take t.units))
        fill t stride n (offset + stride) (bs.drop t.units) stored

/-- `xdr_array`, decoding into a caller's memory, with the number of elements. -/
def xdrArrayOf (t : Scalar) (maxsize stride : Nat) (mem bs : List UInt8) :
    Option (Nat × List UInt8) :=
  if bs.length < 4 then none
  else if maxsize < lib.uIntOf (bs.take 4) then none
  else (fill lib t stride (lib.uIntOf (bs.take 4)) 0 (bs.drop 4) mem).map fun filled =>
    (lib.uIntOf (bs.take 4), filled)

/-- What a memory stream of a size takes. -/
def sink (size : Int) (bytes : List UInt8) : Option (List UInt8) :=
  if (bytes.length : Int) ≤ size then some bytes else none

variable {lib}

@[simp]
theorem length_xdrOpaque (m : List UInt8) : (xdrOpaque m).length = m.length + pad m.length := by
  simp [xdrOpaque]

theorem xdrOpaqueOf_xdrOpaque (m rest : List UInt8) :
    xdrOpaqueOf m.length (xdrOpaque m ++ rest) = some m := by
  rw [xdrOpaqueOf, if_neg (by simp), xdrOpaque, List.append_assoc, List.take_left]

theorem xdrBytesOf_of_le {maxsize : Nat} {m : List UInt8} (small : m.length < 2 ^ 32)
    (le : m.length ≤ maxsize) (rest : List UInt8) :
    xdrBytesOf lib maxsize (lib.uInt m.length ++ rest) = xdrOpaqueOf m.length rest := by
  rw [xdrBytesOf, if_neg (by simp), List.take_left' (lib.length_uInt _), lib.uIntOf_uInt small,
    if_neg (Nat.not_lt.mpr le), List.drop_left' (lib.length_uInt _)]

theorem xdrBytesOf_of_lt {maxsize : Nat} {m : List UInt8} (small : m.length < 2 ^ 32)
    (lt : maxsize < m.length) (rest : List UInt8) :
    xdrBytesOf lib maxsize (lib.uInt m.length ++ rest) = none := by
  rw [xdrBytesOf, if_neg (by simp), List.take_left' (lib.length_uInt _), lib.uIntOf_uInt small,
    if_pos lt]

theorem le_mul_units (t : Scalar) (n : Nat) : n ≤ n * t.units := by
  cases t <;> simp only [Scalar.units] <;> omega

theorem length_coders (lib : Library) {t : Scalar} (cells : List (Cell t)) :
    (cells.flatMap fun cell => lib.coder t cell.octets).length = cells.length * t.units := by
  induction cells with
  | nil => simp
  | cons cell cells ih =>
      rw [List.flatMap_cons, List.length_append, ih, lib.length_coder cell.length, List.length_cons]
      ring

theorem length_cells {t : Scalar} (cells : List (Cell t)) :
    (cells.flatMap Cell.octets).length = cells.length * t.width := by
  induction cells with
  | nil => simp
  | cons cell cells ih =>
      rw [List.flatMap_cons, List.length_append, ih, cell.length, List.length_cons]
      ring

theorem length_store {mem m stored : List UInt8} {offset : Nat}
    (ok : store mem offset m = some stored) : stored.length = mem.length := by
  unfold store at ok
  split at ok
  · cases ok
  · cases ok
    simp
    omega

/-- Elements decoded side by side are the elements that were encoded. -/
theorem fill_coders {t : Scalar} (cells : List (Cell t)) (before mem rest : List UInt8)
    (room : mem.length = cells.length * t.width) :
    fill lib t t.width cells.length before.length
      ((cells.flatMap fun cell => lib.coder t cell.octets) ++ rest) (before ++ mem) =
    some (before ++ cells.flatMap Cell.octets) := by
  induction cells generalizing before mem with
  | nil =>
      have empty : mem = [] := List.length_eq_zero_iff.mp (by simpa using room)
      simp [fill, empty]
  | cons cell cells ih =>
      rw [List.length_cons, Nat.succ_mul] at room
      have encoded := lib.length_coder cell.length
      have stored : store (before ++ mem) before.length cell.octets =
          some ((before ++ cell.octets) ++ mem.drop t.width) := by
        rw [store, if_neg (by simp [cell.length]; omega), List.take_left, List.drop_append, cell.length]
        simp
      have next := ih (before ++ cell.octets) (mem.drop t.width) (by simp; omega)
      rw [List.length_append, cell.length] at next
      rw [List.flatMap_cons, List.append_assoc, List.length_cons, fill,
        if_neg (by simp [encoded]), List.take_left' encoded, List.drop_left' encoded,
        lib.coderOf_coder cell.length, stored]
      simpa using next

/-- A stride that leads beyond the memory makes decoding fail. -/
theorem fill_overrun {t : Scalar} {stride : Nat} (cells : List (Cell t)) {offset : Nat}
    {mem : List UInt8} (rest : List UInt8) (some_ : cells ≠ [])
    (overrun : mem.length < offset + stride * (cells.length - 1) + t.width) :
    fill lib t stride cells.length offset
      ((cells.flatMap fun cell => lib.coder t cell.octets) ++ rest) mem = none := by
  induction cells generalizing offset mem with
  | nil => exact absurd rfl some_
  | cons cell cells ih =>
      have encoded := lib.length_coder cell.length
      rw [List.flatMap_cons, List.append_assoc, List.length_cons, fill,
        if_neg (by simp [encoded]), List.take_left' encoded, List.drop_left' encoded,
        lib.coderOf_coder cell.length]
      cases stored : store mem offset cell.octets with
      | none => rfl
      | some mem' =>
          cases cells with
          | nil => simp [store, cell.length] at stored; simp at overrun; omega
          | cons next cells =>
              apply ih (List.cons_ne_nil _ _)
              rw [length_store stored]
              simp [Nat.mul_add] at overrun ⊢
              omega

theorem fill_one {t : Scalar} (stride : Nat) (cell : Cell t) {mem : List UInt8} (rest : List UInt8)
    (room : mem.length = t.width) :
    fill lib t stride 1 0 (lib.coder t cell.octets ++ rest) mem = some cell.octets := by
  have encoded := lib.length_coder cell.length
  have all : mem.drop cell.octets.length = [] := List.drop_of_length_le (by rw [cell.length, room])
  rw [fill, if_neg (by simp [encoded]), List.take_left' encoded, lib.coderOf_coder cell.length,
    store, if_neg (by rw [cell.length]; omega)]
  simp [fill, all]

theorem xdrArrayOf_of_le {t : Scalar} {maxsize stride n : Nat} (small : n < 2 ^ 32)
    (le : n ≤ maxsize) (mem rest : List UInt8) :
    xdrArrayOf lib t maxsize stride mem (lib.uInt n ++ rest) =
      (fill lib t stride n 0 rest mem).map fun filled => (n, filled) := by
  rw [xdrArrayOf, if_neg (by simp), List.take_left' (lib.length_uInt _), lib.uIntOf_uInt small,
    if_neg (Nat.not_lt.mpr le), List.drop_left' (lib.length_uInt _)]

/-! ## The standard encoding

Integers are four octets, the most significant first, with the sign extended; a value of
eight octets stays one of eight. -/

/-- The number that encodes a value whose memory spells `n`. -/
def extend (t : Scalar) (n : Nat) : Nat :=
  match t with
  | .byte => if n < 2 ^ 7 then n else n + (2 ^ 32 - 2 ^ 8)
  | .int16 => if n < 2 ^ 15 then n else n + (2 ^ 32 - 2 ^ 16)
  | .uint16 | .int32 | .uint32 | .float32 | .float64 => n

theorem extend_mod (t : Scalar) (n : Nat) : extend t n % 256 ^ t.width = n % 256 ^ t.width := by
  cases t with
  | byte => simp only [extend, Scalar.width]; split <;> omega
  | int16 => simp only [extend, Scalar.width]; split <;> omega
  | _ => rfl

theorem width_dvd_units (t : Scalar) : (256 : Nat) ^ t.width ∣ 256 ^ t.units :=
  pow_dvd_pow _ (by cases t <;> decide)

theorem i32_word_octets {x : Int} (fits : FitsI32 x) : i32 (word .big (octets .big 4 (u32 x))) = x := by
  rw [word_octets_of_lt _ (u32_lt x)]
  simp only [FitsI32, u32, i32] at fits ⊢
  omega

theorem octets_word_extend (host : ByteOrder) {t : Scalar} {m : List UInt8} (length : m.length = t.width) :
    octets host t.width (word .big (octets .big t.units (extend t (word host m)))) = m := by
  have same : extend t (word host m) % 256 ^ t.units % 256 ^ t.width = word host m := by
    have small := word_lt host m
    rw [length] at small
    rw [Nat.mod_mod_of_dvd _ (width_dvd_units t), extend_mod, Nat.mod_eq_of_lt small]
  rw [word_octets, ← octets_mod, same, ← length, octets_word]

theorem octets_u32 {n : Nat} (small : n < 2 ^ 31) : octets .big 4 n = octets .big 4 (u32 n) := by
  rw [u32_of_lt (Nat.lt_trans small (by decide))]

/-- The library of a host. -/
def standard (host : ByteOrder) : Library where
  int x := octets .big 4 (u32 x)
  intOf bs := i32 (word .big bs)
  uInt n := octets .big 4 n
  uIntOf bs := word .big bs
  coder t m := octets .big t.units (extend t (word host m))
  coderOf t bs := octets host t.width (word .big bs)
  length_int _ := length_octets _ _ _
  intOf_int := i32_word_octets
  length_uInt _ := length_octets _ _ _
  uIntOf_uInt small := word_octets_of_lt _ small
  uInt_eq_int := octets_u32
  length_coder _ := length_octets _ _ _
  coderOf_coder := octets_word_extend host

example : (standard .little).coder .int16 [0xfe, 0xff] = [0xff, 0xff, 0xff, 0xfe] := by decide

end Xdr

end Libdap.Marshal
