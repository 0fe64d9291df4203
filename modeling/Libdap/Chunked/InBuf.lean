import Libdap.Chunked.Header
import Libdap.Foundation.InStream
import Libdap.Foundation.Ints

/-! # The chunked input buffer

`chunked_inbuf` hides the chunks of a stream from its client, who reads one
octet at a time (`underflow`), a block (`xsgetn`), or asks for the next chunk as
a whole (`read_next_chunk`). Memory that nothing has been written to is part of
the model, because the reader can be made to hand it out.
-/

namespace Libdap.Chunked

open Ints

/-- What the machine contributes: its byte order, and at `heap n i` the octet
    that happens to be at offset `i` of a fresh `new char[n]`. -/
structure Host where
  bigEndian : Bool
  heap : Nat → Nat → UInt8

/-- A little-endian machine whose fresh memory is zero. -/
def littleHost : Host := ⟨false, fun _ _ => 0⟩

/-- `gptr` and `egptr` are offsets into `buffer`, where `eback()` is always zero. -/
structure InBuf where
  is : InStream UInt8
  bufSize : Nat
  buffer : List UInt8
  gptr : Nat
  egptr : Nat
  twiddleBytes : Bool
  setTwiddle : Bool
  error : Bool
  errorMessage : List UInt8
  deriving Repr, DecidableEq

/-- What `xsgetn` returns, what it has copied to its caller, and what it leaves. -/
structure BlockRead where
  ret : Int
  stored : List UInt8
  buf : InBuf
  deriving Repr, DecidableEq

namespace InBuf

variable (host : Host)

def bufferAlloc (b : InBuf) : InBuf :=
  { b with buffer := (List.range b.bufSize).map (host.heap b.bufSize), gptr := 0, egptr := 0 }

def create (input : List UInt8) (size : Int) : Except String InBuf :=
  let bufSize := u32 size
  if bufSize &&& CHUNK_TYPE_MASK ≠ 0 then
    throw "A chunked_outbuf (or chunked_ostream) was built using a buffer larger than 0x00ffffff"
  else
    pure (bufferAlloc host
      { is := .open_ input, bufSize, buffer := [], gptr := 0, egptr := 0
        twiddleBytes := false, setTwiddle := false, error := false, errorMessage := [] })

/-- The header of the next chunk, `none` when the stream ends before it is
    complete. The first header says whether the sender's words need twiddling;
    the flag bit is compared with a `bool` as the number it is. -/
def readHeader (b : InBuf) : Option Nat × InBuf :=
  let got := b.is.read 4
  let header := ofHeaderOctets got.1
  if got.2.eof then (none, { b with is := got.2 })
  else if b.setTwiddle then (some header, { b with is := got.2 })
  else
    (some header,
      { b with
        is := got.2
        twiddleBytes := (if host.bigEndian then 1 else 0) == header &&& CHUNK_LITTLE_ENDIAN
        setTwiddle := true })

/-- Make the buffer `size` octets long when it cannot hold `needed`. -/
def reserve (b : InBuf) (needed size : Nat) : InBuf :=
  if needed > b.bufSize then bufferAlloc host { b with bufSize := size } else b

/-- `d_is.read(d_buffer, n)`: a short read leaves the rest of the buffer as it was. -/
def fill (b : InBuf) (n : Nat) : InBuf :=
  let got := b.is.read n
  { b with is := got.2, buffer := got.1 ++ b.buffer.drop got.1.length }

/-- `setg(d_buffer, d_buffer, d_buffer + n)`. -/
def setg (b : InBuf) (n : Nat) : InBuf := { b with gptr := 0, egptr := n }

/-- `*gptr()`, also when the get area is empty. -/
def peek (b : InBuf) : UInt8 := b.buffer.getD b.gptr 0

def fail (b : InBuf) (message : List UInt8) : InBuf :=
  { b with error := true, errorMessage := message }

def unknownType : List UInt8 := "Failed to read known chunk header type.".toUTF8.toList

/-- The common part of `underflow` and `read_next_chunk`: replace the get area by
    the body of the next chunk. The result is the size of the chunk, `none` for
    end of file. How much of the body was really read is not looked at. -/
def nextChunk (b : InBuf) : Option Nat × InBuf :=
  match b.readHeader host with
  | (none, b) => (none, b)
  | (some header, b) =>
    let chunkSize := header &&& CHUNK_SIZE_MASK
    let type := header &&& CHUNK_TYPE_MASK
    let b := b.reserve host chunkSize chunkSize
    if chunkSize = 0 ∧ type = CHUNK_END then (none, b)
    else
      let b := (b.fill chunkSize).setg chunkSize
      if type = CHUNK_END then (some chunkSize, b)
      else if type = CHUNK_DATA then (some chunkSize, b)
      else if type = CHUNK_ERR then (none, b.fail (b.buffer.take chunkSize))
      else (none, b.fail unknownType)

/-- The octet at the get pointer, `none` for end of file. -/
def underflow (b : InBuf) : Option UInt8 × InBuf :=
  if b.gptr < b.egptr then (some b.peek, b)
  else
    match b.nextChunk host with
    | (some _, b) => (some b.peek, b)
    | (none, b) => (none, b)

/-- The inherited `sbumpc`, which goes through `uflow` when the get area is
    empty: the get pointer moves on whether or not `underflow` filled anything. -/
def sbumpc (b : InBuf) : Option UInt8 × InBuf :=
  match b.underflow host with
  | (some c, b) => (some c, { b with gptr := b.gptr + 1 })
  | (none, b) => (none, b)

def readNextChunk (b : InBuf) : Int × InBuf :=
  match b.nextChunk host with
  | (some chunkSize, b) => (notEof chunkSize, b)
  | (none, b) => (eof, b)

theorem length_rest_of_readHeader {b b' : InBuf} {header : Nat}
    (got : b.readHeader host = (some header, b')) :
    b.is.rest.length = b'.is.rest.length + 4 := by
  unfold readHeader at got
  simp only at got
  split at got
  · simp at got
  · rename_i good
    have taken := InStream.length_of_read_good (Bool.eq_false_iff.mpr good)
    split at got
    all_goals
      cases got
      exact taken

@[simp]
theorem is_reserve (b : InBuf) (needed size : Nat) : (b.reserve host needed size).is = b.is := by
  unfold reserve
  split <;> rfl

/-- The loop of `xsgetn`. `left` is `bytes_left_to_read` and `stored` what has
    been copied to the caller so far. -/
def blockLoop (num left : Nat) (stored : List UInt8) (b : InBuf) : BlockRead :=
  match _taken : b.readHeader host with
  | (none, b₁) => ⟨eof, stored, b₁⟩
  | (some header, b₁) =>
    let chunkSize := header &&& CHUNK_SIZE_MASK
    let type := header &&& CHUNK_TYPE_MASK
    if type = CHUNK_ERR then
      let message := b₁.is.read chunkSize
      let zeros := List.replicate (chunkSize - message.1.length) (0 : UInt8)
      ⟨eof, stored, ({ b₁ with is := message.2 }.setg 0).fail (message.1 ++ zeros)⟩
    else if chunkSize = 0 ∧ type = CHUNK_END then
      ⟨notEof (num - left), stored, b₁⟩
    else if left < chunkSize then
      let got := b₁.is.read left
      let leftover := chunkSize - left
      let b₂ := (({ b₁ with is := got.2 }.reserve host leftover chunkSize).fill leftover).setg leftover
      if type = CHUNK_END ∨ type = CHUNK_DATA then ⟨notEof num, stored ++ got.1, b₂⟩
      else ⟨eof, stored ++ got.1, b₂.fail unknownType⟩
    else
      let got := b₁.is.read chunkSize
      let b₂ := { b₁.reserve host chunkSize chunkSize with is := got.2 }
      let left' := left - chunkSize
      if type = CHUNK_END then ⟨notEof (num - left'), stored ++ got.1, b₂⟩
      else if type = CHUNK_DATA then
        if left' = 0 then ⟨notEof num, stored ++ got.1, b₂⟩
        else blockLoop num left' (stored ++ got.1) b₂
      else ⟨eof, stored ++ got.1, b₂.fail unknownType⟩
termination_by b.is.rest.length
decreasing_by
  have header := length_rest_of_readHeader host _taken
  apply Nat.lt_of_le_of_lt (InStream.length_read_le b₁.is _)
  omega

/-- Read a block of `num` octets. What is still wanted is counted in an unsigned
    32-bit integer. -/
def xsgetn (b : InBuf) (num : Nat) : BlockRead :=
  if (num : Int) ≤ (b.egptr : Int) - b.gptr then
    ⟨notEof num, (b.buffer.drop b.gptr).take num, { b with gptr := b.gptr + num }⟩
  else if b.gptr < b.egptr then
    let toTransfer := b.egptr - b.gptr
    blockLoop host num (u32 ((u32 num : Int) - toTransfer)) ((b.buffer.drop b.gptr).take toTransfer)
      { b with gptr := b.egptr }
  else blockLoop host num (u32 num) [] b

end InBuf

end Libdap.Chunked
