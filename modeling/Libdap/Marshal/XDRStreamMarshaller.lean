import Libdap.Marshal.WriterThread
import Libdap.Marshal.Xdr
import Mathlib.Data.List.TakeWhile

/-! # XDRStreamMarshaller

Each `put_` method of a value encodes it into memory and writes that in a locked
section; vectors are left to a child thread. The methods are given here as the
sections they go through, or as none when they throw. The only state between two
calls is the octet count of a vector that is put in parts.
-/

namespace Libdap.Marshal.XDRStreamMarshaller

open Ints Xdr

def xdrDapBuffSize : Nat := 256

/-- Write what has been encoded. Nothing encoded is an error. -/
def written (bytes : List UInt8) : Option (List Section) :=
  if bytes = [] then none else some [.write bytes]

/-- Encode one value at the start of `d_sink` and write it. -/
def putEncoded (bytes : List UInt8) : Option (List Section) :=
  (sink xdrDapBuffSize bytes).bind written

variable (lib : Library)

def putByte (val : Cell .byte) := putEncoded (lib.coder .byte val.octets)

def putInt16 (val : Cell .int16) := putEncoded (lib.coder .int16 val.octets)

def putInt32 (val : Cell .int32) := putEncoded (lib.coder .int32 val.octets)

def putFloat32 (val : Cell .float32) := putEncoded (lib.coder .float32 val.octets)

def putFloat64 (val : Cell .float64) := putEncoded (lib.coder .float64 val.octets)

def putUInt16 (val : Cell .uint16) := putEncoded (lib.coder .uint16 val.octets)

def putUInt32 (val : Cell .uint32) := putEncoded (lib.coder .uint32 val.octets)

/-- The method for a scalar of a type. -/
def putScalar : (t : Scalar) → Cell t → Option (List Section)
  | .byte => putByte lib
  | .int16 => putInt16 lib
  | .uint16 => putUInt16 lib
  | .int32 => putInt32 lib
  | .uint32 => putUInt32 lib
  | .float32 => putFloat32 lib
  | .float64 => putFloat64 lib

def putInt (val : Int) := putEncoded (lib.int val)

/-- Encode a string into memory of a size, which a negative one does not give. -/
def putStrInto (size : Int) (val : List UInt8) : Option (List Section) :=
  if size < 0 then none
  else ((xdrString lib val size.toNat).bind (sink size)).bind written

/-- `put_str`, where an `int` is the size of the memory. -/
def putStr (val : List UInt8) : Option (List Section) := putStrInto lib (i32 (val.length + 8)) val

def putOpaque (val : List UInt8) : Option (List Section) :=
  if xdrDapBuffSize < val.length then none else putEncoded (xdrOpaque val)

/-- Leave the encoding of a vector to a child. -/
def leave (bytes : List UInt8) : Option (List Section) :=
  if bytes = [] then none else some [.handOver bytes bytes.length]

/-- `put_vector` for octets, with the room for the count and the padding. -/
def putVectorByte (val : List UInt8) : Option (List Section) := do
  let count ← putInt lib val.length
  let bytes ← xdrBytes lib val (val.length + 8)
  let encoded ← sink (val.length + 8) bytes
  let vector ← leave encoded
  return count ++ vector

/-- The `int` that `put_vector` and `put_vector_part` take for the size of an encoded
    array: an `unsigned int` number times a width, and the count. -/
def arraySize (num width : Nat) : Int :=
  i32 ((num * (if width < 4 then 4 else width) + 4) % 2 ^ 32 : Nat)

/-- Encode an array into memory of a size. Octets have no coder. -/
def encodeInto (size : Int) (t : Scalar) (val : List (Cell t)) : Option (List UInt8) :=
  if t = .byte ∨ size < 0 then none else (xdrArray lib t val size.toNat).bind (sink size)

def encodeArray (t : Scalar) (val : List (Cell t)) : Option (List UInt8) :=
  encodeInto lib (arraySize val.length t.width) t val

/-- `put_vector` for numbers. -/
def putVector (t : Scalar) (val : List (Cell t)) : Option (List Section) := do
  let count ← putInt lib (i32 val.length)
  if val = [] then return count
  let encoded ← encodeArray lib t val
  let vector ← leave encoded
  return count ++ vector

/-- The marshaller between two calls: `d_partial_put_byte_count`, an `int`. -/
structure Partial where
  byteCount : Int
  deriving Repr, DecidableEq

/-- `put_vector_start`, whatever the last vector has left of the count. -/
def putVectorStart (num : Int) (_m : Partial) : Option (List Section × Partial) := do
  let first ← putInt lib num
  let second ← putInt lib num
  return (first ++ second, ⟨0⟩)

/-- `put_vector_part`: the child skips the count in front, and is not given the padding. -/
def putVectorPart (t : Scalar) (val : List (Cell t)) (m : Partial) :
    Option (List Section × Partial) :=
  if t.width = 1 then do
    let bufsiz := (val.length + 8) % 2 ^ 32
    let bytes ← xdrBytes lib (val.flatMap Cell.octets) bufsiz
    let encoded ← sink bufsiz bytes
    return ([.handOver (encoded.drop 4) val.length], ⟨i32 (m.byteCount + val.length)⟩)
  else do
    let encoded ← encodeArray lib t val
    let size := arraySize val.length t.width
    return ([.handOver (encoded.drop 4) (size - 4).toNat], ⟨i32 (m.byteCount + (size - 4))⟩)

/-- `put_vector_end`: zeros up to a multiple of four octets. -/
def putVectorEnd (m : Partial) : List Section × Partial :=
  let mod4 := (m.byteCount % 4).toNat
  let padding := if mod4 = 0 then 0 else 4 - mod4
  ([.write (List.replicate padding 0)], m)

variable {lib}

theorem units_eq (t : Scalar) : (if t.width < 4 then 4 else t.width) = t.units := by
  cases t <;> rfl

theorem putEncoded_eq {bytes : List UInt8} (some_ : bytes ≠ []) (short : bytes.length ≤ 256) :
    putEncoded bytes = some [.write bytes] := by
  have fits : (bytes.length : Int) ≤ xdrDapBuffSize := by simp only [xdrDapBuffSize]; omega
  rw [putEncoded, sink, if_pos fits, Option.bind_some, written, if_neg some_]

theorem putInt_eq (val : Int) : putInt lib val = some [.write (lib.int val)] :=
  putEncoded_eq (List.ne_nil_of_length_pos (by simp)) (by simp)

theorem putScalar_eq (t : Scalar) (val : Cell t) :
    putScalar lib t val = some [.write (lib.coder t val.octets)] := by
  have length := lib.length_coder val.length
  have encoded : putEncoded (lib.coder t val.octets) = some [.write (lib.coder t val.octets)] :=
    putEncoded_eq (List.ne_nil_of_length_pos (by cases t <;> simp_all [Scalar.units]))
      (by cases t <;> simp_all [Scalar.units])
  cases t <;> exact encoded

/-- The octets of an encoded array: the count and the elements. -/
def encoding (lib : Library) (t : Scalar) (val : List (Cell t)) : List UInt8 :=
  lib.uInt val.length ++ val.flatMap fun cell => lib.coder t cell.octets

theorem length_encoding (lib : Library) (t : Scalar) (val : List (Cell t)) :
    (encoding lib t val).length = val.length * t.units + 4 := by
  rw [encoding, List.length_append, length_coders, lib.length_uInt, Nat.add_comm]

theorem arraySize_eq {t : Scalar} {num : Nat} (small : num * t.units + 4 < 2 ^ 31) :
    arraySize num t.width = (num * t.units + 4 : Nat) := by
  rw [arraySize, units_eq, Nat.mod_eq_of_lt (by omega), i32_ofNat_of_lt small]

theorem arraySize_lt (num width : Nat) : arraySize num width < 2 ^ 31 := (i32_fits _).2

/-- Numbers are encoded when that takes fewer than `2 ^ 31` octets. -/
theorem encodeArray_eq {t : Scalar} {val : List (Cell t)} (number : t ≠ .byte)
    (small : val.length * t.units + 4 < 2 ^ 31) :
    encodeArray lib t val = some (encoding lib t val) := by
  have few := le_mul_units t val.length
  rw [encodeArray, encodeInto, arraySize_eq small, if_neg (by simp [number]; omega), xdrArray, Int.toNat_natCast,
    if_neg (by omega), Option.bind_some, sink, if_pos (by exact_mod_cast (length_encoding lib t val).le)]
  rfl

theorem of_encodeInto {size : Int} {t : Scalar} {val : List (Cell t)} {encoded : List UInt8}
    (ok : encodeInto lib size t val = some encoded) :
    t ≠ .byte ∧ ((encoding lib t val).length : Int) ≤ size := by
  simp only [encodeInto, xdrArray] at ok
  split at ok
  · cases ok
  · rename_i ordinary
    push Not at ordinary
    split at ok
    · cases ok
    · simp only [Option.bind_some, sink] at ok
      split at ok
      · rename_i fits
        exact ⟨ordinary.1, fits⟩
      · cases ok

/-- Nothing longer fits the size that is computed for it. -/
theorem of_encodeArray {t : Scalar} {val : List (Cell t)} {encoded : List UInt8}
    (ok : encodeArray lib t val = some encoded) :
    t ≠ .byte ∧ val.length * t.units + 4 < 2 ^ 31 := by
  obtain ⟨number, fits⟩ := of_encodeInto ok
  have small := arraySize_lt val.length t.width
  rw [length_encoding] at fits
  exact ⟨number, by omega⟩

theorem of_putEncoded {bytes : List UInt8} {sections : List Section}
    (ok : putEncoded bytes = some sections) : sections = [.write bytes] := by
  obtain ⟨encoded, taken, wrote⟩ := Option.bind_eq_some_iff.mp ok
  simp only [sink, written] at taken wrote
  split at taken
  · cases taken
    split at wrote
    · cases wrote
    · cases wrote
      rfl
  · cases taken

theorem of_putStrInto {size : Int} {val : List UInt8} {sections : List Section}
    (nulFree : ∀ b ∈ val, b ≠ 0) (ok : putStrInto lib size val = some sections) :
    0 ≤ size ∧ (val.length : Int) + 4 ≤ size ∧
      sections = [.write (lib.uInt val.length ++ xdrOpaque val)] := by
  have whole : val.takeWhile (· != 0) = val := by
    simpa [List.takeWhile_eq_self_iff] using nulFree
  simp only [putStrInto, xdrString, whole, xdrBytes] at ok
  split at ok
  · cases ok
  · rename_i natural
    split at ok
    · cases ok
    · obtain ⟨encoded, taken, wrote⟩ := Option.bind_eq_some_iff.mp ok
      simp only [Option.bind_some, sink, written] at taken wrote
      split at taken
      · rename_i fits
        rw [List.length_append, lib.length_uInt, length_xdrOpaque] at fits
        cases taken
        split at wrote
        · cases wrote
        · cases wrote
          exact ⟨by omega, by omega, rfl⟩
      · cases taken

/-- A string is written when its length and eight are an `int`. -/
theorem of_putStr {val : List UInt8} {sections : List Section} (nulFree : ∀ b ∈ val, b ≠ 0)
    (ok : putStr lib val = some sections) :
    val.length + 8 < 2 ^ 31 ∧ sections = [.write (lib.uInt val.length ++ xdrOpaque val)] := by
  obtain ⟨natural, fits, rfl⟩ := of_putStrInto nulFree ok
  have below := (i32_fits ((val.length : Int) + 8)).2
  refine ⟨?_, rfl⟩
  by_contra large
  have wrapped := @i32_wrapped (val.length + 8) (by omega) (by omega)
  rw [Nat.cast_add, Nat.cast_ofNat] at wrapped
  omega

theorem putStr_eq {val : List UInt8} (nulFree : ∀ b ∈ val, b ≠ 0) (small : val.length + 8 < 2 ^ 31) :
    putStr lib val = some [.write (lib.uInt val.length ++ xdrOpaque val)] := by
  have whole : val.takeWhile (· != 0) = val := by
    simpa [List.takeWhile_eq_self_iff] using nulFree
  have size : i32 ((val.length : Int) + 8) = (val.length + 8 : Nat) := by
    rw [show (val.length : Int) + 8 = (val.length + 8 : Nat) by simp, i32_ofNat_of_lt small]
  have fits : ((lib.uInt val.length ++ xdrOpaque val).length : Int) ≤ (val.length + 8 : Nat) := by
    have padded := pad_lt val.length
    simp only [List.length_append, lib.length_uInt, length_xdrOpaque]
    omega
  have some_ : lib.uInt val.length ++ xdrOpaque val ≠ [] :=
    List.ne_nil_of_length_pos (by simp)
  rw [putStr, size, putStrInto, if_neg (by omega), xdrString, whole, xdrBytes, Int.toNat_natCast,
    if_neg (by omega), Option.bind_some, sink, if_pos fits, Option.bind_some, written, if_neg some_]

theorem of_putOpaque {val : List UInt8} {sections : List Section}
    (ok : putOpaque val = some sections) : val.length ≤ 256 ∧ sections = [.write (xdrOpaque val)] := by
  unfold putOpaque at ok
  split at ok
  · cases ok
  · rename_i short
    exact ⟨Nat.le_of_not_lt short, of_putEncoded ok⟩

theorem leave_eq {bytes : List UInt8} (some_ : bytes ≠ []) :
    leave bytes = some [.handOver bytes bytes.length] := if_neg some_

theorem ne_nil_of_count (n : Nat) (bytes : List UInt8) : lib.uInt n ++ bytes ≠ [] :=
  List.ne_nil_of_length_pos (by simp)

theorem putVectorByte_eq (lib : Library) (val : List UInt8) :
    putVectorByte lib val = some [.write (lib.int val.length),
      .handOver (lib.uInt val.length ++ xdrOpaque val) (4 + val.length + pad val.length)] := by
  have length : (lib.uInt val.length ++ xdrOpaque val).length = 4 + val.length + pad val.length := by
    simp [Nat.add_assoc]
  have padded := pad_lt val.length
  have bytes : xdrBytes lib val (val.length + 8) = some (lib.uInt val.length ++ xdrOpaque val) :=
    if_neg (by omega)
  have encoded : sink ((val.length : Int) + 8) (lib.uInt val.length ++ xdrOpaque val) =
      some (lib.uInt val.length ++ xdrOpaque val) := if_pos (by rw [length]; omega)
  rw [← length, putVectorByte, putInt_eq, bytes]
  simp only [Option.bind_eq_bind, Option.bind_some, encoded, leave_eq (ne_nil_of_count _ _)]
  rfl

theorem putVector_eq {t : Scalar} {val : List (Cell t)} (some_ : val ≠ []) (number : t ≠ .byte)
    (small : val.length * t.units + 4 < 2 ^ 31) :
    putVector lib t val = some [.write (lib.int val.length),
      .handOver (encoding lib t val) (val.length * t.units + 4)] := by
  have few := le_mul_units t val.length
  have count : i32 (val.length : Int) = val.length := i32_ofNat_of_lt (by omega)
  have left : leave (encoding lib t val) = some [.handOver (encoding lib t val) (encoding lib t val).length] :=
    leave_eq (ne_nil_of_count _ _)
  rw [putVector, putInt_eq, Option.bind_eq_bind, Option.bind_some, if_neg some_,
    encodeArray_eq number small, Option.bind_eq_bind, Option.bind_some,
    left, length_encoding, count]
  rfl

theorem of_putVector {t : Scalar} {val : List (Cell t)} {sections : List Section}
    (some_ : val ≠ []) (ok : putVector lib t val = some sections) :
    t ≠ .byte ∧ val.length * t.units + 4 < 2 ^ 31 := by
  rw [putVector, putInt_eq, Option.bind_eq_bind, Option.bind_some, if_neg some_] at ok
  obtain ⟨encoded, array, -⟩ := Option.bind_eq_some_iff.mp ok
  exact of_encodeArray array

end Libdap.Marshal.XDRStreamMarshaller
