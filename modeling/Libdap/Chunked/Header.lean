import Libdap.Foundation.Words
import Mathlib.Data.Nat.Bitwise

/-! # Chunk headers

A chunked stream is a sequence of chunks, each a four octet header followed by
its body. The header is one word in network byte order: the low 24 bits are the
size of the body, the next two are the type of the chunk, and the bit above
those says that the sender is little endian.
-/

namespace Libdap.Chunked

open Words

def CHUNK_DATA : Nat := 0x00000000
def CHUNK_END : Nat := 0x01000000
def CHUNK_ERR : Nat := 0x02000000
def CHUNK_LITTLE_ENDIAN : Nat := 0x04000000
def CHUNK_TYPE_MASK : Nat := 0x03000000
def CHUNK_SIZE_MASK : Nat := 0x00FFFFFF

/-- The three mutually exclusive kinds of chunk. -/
inductive ChunkType where
  | data
  | «end»
  | err
  deriving Repr, DecidableEq

def ChunkType.code : ChunkType → Nat
  | .data => CHUNK_DATA
  | .end => CHUNK_END
  | .err => CHUNK_ERR

/-- The header word a writer of the given byte order puts before `size` octets. -/
def headerWord (type : ChunkType) (bigEndian : Bool) (size : Nat) : Nat :=
  if bigEndian then size ||| type.code else size ||| type.code ||| CHUNK_LITTLE_ENDIAN

/-- `htonl` followed by a raw write of the word. -/
def headerOctets (type : ChunkType) (bigEndian : Bool) (size : Nat) : List UInt8 :=
  octets .big 4 (headerWord type bigEndian size)

/-- A raw read of four octets followed by `ntohl`. -/
def ofHeaderOctets (bs : List UInt8) : Nat := word .big bs

private def tag (type : ChunkType) (bigEndian : Bool) : Nat :=
  (match type with | .data => 0 | .end => 1 | .err => 2) + if bigEndian then 0 else 4

private theorem headerWord_eq (type : ChunkType) (bigEndian : Bool) {size : Nat}
    (fits : size ≤ CHUNK_SIZE_MASK) :
    headerWord type bigEndian size = 2 ^ 24 * tag type bigEndian + size := by
  have low : size < 2 ^ 24 := Nat.lt_succ_of_le fits
  rw [Nat.two_pow_add_eq_or_of_lt low]
  cases type <;> cases bigEndian <;>
    simp [headerWord, tag, ChunkType.code, CHUNK_DATA, CHUNK_END, CHUNK_ERR,
      CHUNK_LITTLE_ENDIAN, Nat.or_comm, Nat.or_assoc]

private theorem tag_lt (type : ChunkType) (bigEndian : Bool) : tag type bigEndian < 8 := by
  cases type <;> cases bigEndian <;> decide

theorem headerWord_lt (type : ChunkType) (bigEndian : Bool) {size : Nat}
    (fits : size ≤ CHUNK_SIZE_MASK) : headerWord type bigEndian size < 256 ^ 4 := by
  have top := tag_lt type bigEndian
  have low : size < 2 ^ 24 := Nat.lt_succ_of_le fits
  rw [headerWord_eq type bigEndian fits]
  omega

theorem ofHeaderOctets_headerOctets (type : ChunkType) (bigEndian : Bool) {size : Nat}
    (fits : size ≤ CHUNK_SIZE_MASK) :
    ofHeaderOctets (headerOctets type bigEndian size) = headerWord type bigEndian size :=
  word_octets_of_lt .big (headerWord_lt type bigEndian fits)

@[simp]
theorem length_headerOctets (type : ChunkType) (bigEndian : Bool) (size : Nat) :
    (headerOctets type bigEndian size).length = 4 := length_octets ..

/-- The size mask recovers the size of the body. -/
theorem headerWord_size (type : ChunkType) (bigEndian : Bool) {size : Nat}
    (fits : size ≤ CHUNK_SIZE_MASK) :
    headerWord type bigEndian size &&& CHUNK_SIZE_MASK = size := by
  have low : size < 2 ^ 24 := Nat.lt_succ_of_le fits
  rw [headerWord_eq type bigEndian fits,
    show CHUNK_SIZE_MASK = 2 ^ 24 - 1 from rfl, Nat.and_two_pow_sub_one_eq_mod]
  omega

/-- The type mask recovers the type, whatever the size and the byte order. -/
theorem headerWord_type (type : ChunkType) (bigEndian : Bool) {size : Nat}
    (fits : size ≤ CHUNK_SIZE_MASK) :
    headerWord type bigEndian size &&& CHUNK_TYPE_MASK = type.code := by
  have low : size < 2 ^ 24 := Nat.lt_succ_of_le fits
  have sizeBits : size &&& 0x03000000 = 0 := by
    have masked : size &&& (2 ^ 24 - 1) = size := by
      rw [Nat.and_two_pow_sub_one_eq_mod, Nat.mod_eq_of_lt low]
    rw [← masked, Nat.and_assoc]
    exact Nat.and_zero size
  cases type <;> cases bigEndian <;>
    simp [headerWord, Nat.and_or_distrib_right, sizeBits, ChunkType.code, CHUNK_DATA, CHUNK_END,
      CHUNK_ERR, CHUNK_LITTLE_ENDIAN, CHUNK_TYPE_MASK]

/-- A chunk as it stands in a stream. A body is never longer than its header can say. -/
structure Chunk where
  type : ChunkType
  bigEndian : Bool
  body : List UInt8
  fits : body.length ≤ CHUNK_SIZE_MASK

def Chunk.encode (c : Chunk) : List UInt8 :=
  headerOctets c.type c.bigEndian c.body.length ++ c.body

/-- The octets of a sequence of chunks. -/
def encodeAll (cs : List Chunk) : List UInt8 := cs.flatMap Chunk.encode

@[simp]
theorem encodeAll_nil : encodeAll [] = [] := rfl

@[simp]
theorem encodeAll_cons (c : Chunk) (cs : List Chunk) :
    encodeAll (c :: cs) = headerOctets c.type c.bigEndian c.body.length ++ (c.body ++ encodeAll cs) := by
  simp [encodeAll, Chunk.encode]

@[simp]
theorem encodeAll_append (cs ds : List Chunk) : encodeAll (cs ++ ds) = encodeAll cs ++ encodeAll ds := by
  simp [encodeAll]

end Libdap.Chunked
