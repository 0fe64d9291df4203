import Libdap.Foundation.Words
import Libdap.Marshal.Crc32
import Libdap.Marshal.WriterThread

/-! # D4StreamMarshaller

Values are written as they lie in the host's memory, in locked sections; vectors and
the octets of opaque data are left to a child thread. The data of every value are added
to a running checksum, whether or not they are written.
-/

namespace Libdap.Marshal

open Words

/-- The types of the elements of a vector. An enumeration has the width of its base
    type, `2 ^ k` octets. -/
inductive Elem where
  | byte
  | char
  | int8
  | uint8
  | int16
  | uint16
  | int32
  | uint32
  | int64
  | uint64
  | enum (k : Fin 4)
  | float32
  | float64
  deriving Repr, DecidableEq

/-- The number of octets of an element. -/
def Elem.width : Elem → Nat
  | byte | char | int8 | uint8 => 1
  | int16 | uint16 => 2
  | int32 | uint32 | float32 => 4
  | int64 | uint64 | float64 => 8
  | enum k => 2 ^ k.val

/-- The memory of some elements. -/
structure Elements (t : Elem) where
  octets : List UInt8
  num : Nat
  length : octets.length = num * t.width

structure D4StreamMarshaller where
  checksum : Crc32
  writeData : Bool
  deriving Repr, DecidableEq

namespace D4StreamMarshaller

/-- What a call goes through, and the marshaller after it. -/
abbrev Effect := List Section × D4StreamMarshaller

def resetChecksum (m : D4StreamMarshaller) : D4StreamMarshaller := { m with checksum := .reset }

/-- `checksum_update`. -/
def checksumUpdate (m : D4StreamMarshaller) (data : List UInt8) (len : Nat) : D4StreamMarshaller :=
  { m with checksum := m.checksum.addData data len }

/-- Add the data of a value to the checksum and, if data are written at all, go through
    a section. -/
def put (m : D4StreamMarshaller) (data : List UInt8) (section_ : Section) : Effect :=
  (if m.writeData then [section_] else [], m.checksumUpdate data data.length)

variable (host : ByteOrder) (m : D4StreamMarshaller)

/-- `put_checksum`. -/
def putChecksum : Effect := ([.write (octets host 4 m.checksum.getCrc32.toNat)], m)

/-- Write a word of `width` octets. -/
def putWord (width n : Nat) : Effect := m.put (octets host width n) (.write (octets host width n))

def putByte := putWord host m 1

def putInt8 := putWord host m 1

def putInt16 := putWord host m 2

def putInt32 := putWord host m 4

def putInt64 := putWord host m 8

def putFloat32 := putWord host m 4

def putFloat64 := putWord host m 8

def putUInt16 := putWord host m 2

def putUInt32 := putWord host m 4

def putUInt64 := putWord host m 8

/-- `put_count`, which has no part in the checksum. -/
def putCount (count : Nat) : Effect := ([.write (octets host 8 count)], m)

def putStr (val : List UInt8) : Effect :=
  m.put val (.write (octets host 8 val.length ++ val))

/-- `put_opaque_dap4`: the length is written before the octets are left to a child. -/
def putOpaqueDap4 (val : List UInt8) : Effect :=
  m.put val ⟨octets host 8 val.length, some (val, val.length)⟩

/-- `put_vector` for octets: as many of the memory as the number says. -/
def putVectorBytes (val : List UInt8) (numBytes : Nat) : Effect :=
  let data := val.take numBytes
  (if m.writeData then [.handOver data numBytes] else [], m.checksumUpdate data numBytes)

/-- The number of octets of `num_elem` elements. -/
def vectorBytes (numElem elemSize : Nat) : Nat :=
  match elemSize with
  | 1 => numElem
  | 2 => numElem <<< 1
  | 4 => numElem <<< 2
  | 8 => numElem <<< 3
  | _ => numElem * elemSize

/-- `put_vector` for integers. -/
def putVector (val : List UInt8) (numElem elemSize : Nat) : Effect :=
  m.putVectorBytes val (vectorBytes numElem elemSize)

def putVectorFloat32 (val : List UInt8) (numElem : Nat) : Effect :=
  m.putVectorBytes val (numElem <<< 2)

def putVectorFloat64 (val : List UInt8) (numElem : Nat) : Effect :=
  m.putVectorBytes val (numElem <<< 3)

/-- `put_vector_part`. -/
def putVectorPart (val : List UInt8) (num : Nat) (t : Elem) : Effect :=
  match t with
  | .byte | .char | .int8 | .uint8 => m.putVectorBytes val num
  | .int16 | .uint16 | .int32 | .uint32 | .int64 | .uint64 => m.putVector val num t.width
  | .enum _ => if t.width = 1 then m.putVectorBytes val num else m.putVector val num t.width
  | .float32 => m.putVectorFloat32 val num
  | .float64 => m.putVectorFloat32 val num

/-- The method for a whole vector of a type. -/
def putVectorOf (val : List UInt8) (num : Nat) (t : Elem) : Effect :=
  match t with
  | .byte | .char | .int8 | .uint8 => m.putVectorBytes val num
  | .int16 | .uint16 | .int32 | .uint32 | .int64 | .uint64 => m.putVector val num t.width
  | .enum _ => if t.width = 1 then m.putVectorBytes val num else m.putVector val num t.width
  | .float32 => m.putVectorFloat32 val num
  | .float64 => m.putVectorFloat64 val num

variable {m}

theorem vectorBytes_eq {width : Nat} (numElem : Nat) : vectorBytes numElem width = numElem * width := by
  unfold vectorBytes
  split <;> simp [Nat.shiftLeft_eq]

/-- Every method for a whole vector writes all of its elements' octets. -/
theorem putVectorOf_eq (m : D4StreamMarshaller) (val : List UInt8) (num : Nat) (t : Elem) :
    m.putVectorOf val num t = m.putVectorBytes val (num * t.width) := by
  cases t with
  | enum k =>
      simp only [putVectorOf, putVector, vectorBytes_eq]
      split
      · rename_i one
        rw [one, Nat.mul_one]
      · rfl
  | _ => simp [putVectorOf, putVector, putVectorFloat32, putVectorFloat64, vectorBytes_eq, Elem.width,
      Nat.shiftLeft_eq]

/-- So does the method for a part, except that it takes a `float64` for a `float32`. -/
theorem putVectorPart_eq (m : D4StreamMarshaller) (val : List UInt8) (num : Nat) {t : Elem}
    (other : t ≠ .float64) : m.putVectorPart val num t = m.putVectorBytes val (num * t.width) := by
  rw [← putVectorOf_eq]
  cases t with
  | float64 => exact absurd rfl other
  | _ => rfl

/-- What a vector of fewer than `2 ^ 31` octets goes through leaves its octets, when data
    are written. -/
theorem emit_putVectorBytes (m : D4StreamMarshaller) {val : List UInt8} (small : val.length < 2 ^ 31) :
    emit (m.putVectorBytes val val.length).1 = some (if m.writeData then val else []) := by
  unfold putVectorBytes
  cases m.writeData with
  | true => simp [emit_handOver (show Keeps val.length from small)]
  | false => rfl

/-- And its octets are added to the checksum one after the other. -/
theorem checksum_putVectorBytes (m : D4StreamMarshaller) {val : List UInt8} (small : val.length < 2 ^ 32) :
    (m.putVectorBytes val val.length).2 = { m with checksum := val.foldl Crc32.addOctet m.checksum } := by
  simp [putVectorBytes, checksumUpdate, Crc32.addData_of_lt small]

end D4StreamMarshaller

end Libdap.Marshal
