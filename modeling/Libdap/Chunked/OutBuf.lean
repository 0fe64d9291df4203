import Libdap.Chunked.Header
import Libdap.Foundation.Ints

/-! # The chunked output buffer

`chunked_outbuf` collects what is written to it and sends it on as DATA chunks.
The put area is one octet smaller than the buffer, so that the octet which would
overflow it still fits and leaves with the chunk. A block that does not fit is
sent without being copied: first the buffered octets and enough of the block to
complete a chunk, then whole chunks straight from the block, and what remains is
buffered. The stream underneath is taken to accept everything.
-/

namespace Libdap.Chunked

open Ints

/-- `os` is what the underlying stream has received, `buffer` the octets of
    `d_buffer` between `pbase()` and `pptr()`. -/
structure OutBuf where
  os : List UInt8
  bufSize : Nat
  buffer : List UInt8
  bigEndian : Bool
  deriving Repr, DecidableEq

namespace OutBuf

/-- The constructor. Only the two bits of the chunk type are looked at. -/
def create (hostBigEndian : Bool) (bufSize : Nat) : Except String OutBuf :=
  if bufSize &&& CHUNK_TYPE_MASK ≠ 0 then
    throw "A chunked_outbuf (or chunked_ostream) was built using a buffer larger than 0x00ffffff"
  else
    pure { os := [], bufSize, buffer := [], bigEndian := hostBigEndian }

/-- Send what is buffered as a DATA chunk, or nothing when nothing is. -/
def dataChunk (b : OutBuf) : Int × OutBuf :=
  let num := b.buffer.length
  if num = 0 then (0, b)
  else (num, { b with os := b.os ++ headerOctets .data b.bigEndian num ++ b.buffer, buffer := [] })

/-- Send what is buffered as an END chunk, also when nothing is. -/
def endChunk (b : OutBuf) : Int × OutBuf :=
  let num := b.buffer.length
  (num, { b with os := b.os ++ headerOctets .end b.bigEndian num ++ b.buffer, buffer := [] })

/-- Send `m` as an ERR chunk and drop what is buffered. -/
def errChunk (b : OutBuf) (m : List UInt8) : Int × OutBuf :=
  let num := b.buffer.length
  let msg := if m.length > CHUNK_SIZE_MASK then "Error message too long".toUTF8.toList else m
  (num, { b with os := b.os ++ headerOctets .err b.bigEndian msg.length ++ msg, buffer := [] })

/-- `c` is the octet that did not fit in the put area, `none` for end of file. -/
def overflow (b : OutBuf) (c : Option UInt8) : Int × OutBuf :=
  match c with
  | some c => (c.toNat, ({ b with buffer := b.buffer ++ [c] }).dataChunk.2)
  | none => (notEof eof, b.dataChunk.2)

/-- The inherited `sputc`: `epptr()` is one short of the end of the buffer. -/
def sputc (b : OutBuf) (c : UInt8) : OutBuf :=
  if b.buffer.length < b.bufSize - 1 then { b with buffer := b.buffer ++ [c] }
  else (b.overflow (some c)).2

def sync (b : OutBuf) : Int × OutBuf :=
  (notEof 0, b.dataChunk.2)

/-- The loop of `xsputn`: whole chunks from `s` while `still` counts enough
    octets for one. The result is what was sent, the rest of `s` and the rest of
    the count. A buffer of size zero would never leave the loop. -/
def sendWhole (bufSize : Nat) (header : List UInt8) (s : List UInt8) (still : Nat) :
    List UInt8 × List UInt8 × Nat :=
  if 0 < bufSize ∧ bufSize ≤ still then
    let more := sendWhole bufSize header (s.drop bufSize) (still - bufSize)
    (header ++ s.take bufSize ++ more.1, more.2)
  else ([], s, still)
termination_by still

/-- Write the block `s`. The octets that are left once the first chunk is
    complete are counted in an unsigned 32-bit integer. -/
def xsputn (b : OutBuf) (s : List UInt8) : Int × OutBuf :=
  let num := s.length
  let bytesInBuffer := b.buffer.length
  if bytesInBuffer + num < b.bufSize then
    (notEof num, { b with buffer := b.buffer ++ s })
  else
    let header := headerOctets .data b.bigEndian b.bufSize
    let fillOut := b.bufSize - bytesInBuffer
    let stillToSend := u32 (num - fillOut : Int)
    let sent := sendWhole b.bufSize header (s.drop fillOut) stillToSend
    (notEof num,
      { b with
        os := b.os ++ (header ++ b.buffer ++ s.take fillOut) ++ sent.1
        buffer := sent.2.1.take sent.2.2 })

end OutBuf

/-- What a client of the stream can do before it closes it. -/
inductive Write where
  | block (s : List UInt8)
  | char (c : UInt8)
  | flush
  deriving Repr, DecidableEq

/-- The octets a write hands over. -/
def Write.bytes : Write → List UInt8
  | .block s => s
  | .char c => [c]
  | .flush => []

def OutBuf.write (b : OutBuf) : Write → OutBuf
  | .block s => (b.xsputn s).2
  | .char c => b.sputc c
  | .flush => b.sync.2

/-- The writes in order. -/
def OutBuf.writes (b : OutBuf) (ws : List Write) : OutBuf := ws.foldl OutBuf.write b

/-- The count of the octets left of a block once the first chunk is complete
    does not wrap. -/
def OutBuf.Counts (b : OutBuf) : Write → Prop
  | .block s => s.length < b.bufSize - b.buffer.length + 2 ^ 32
  | .char _ | .flush => True

/-- Every write of the run finds a buffer with which its count does not wrap. -/
def OutBuf.AllCount (b : OutBuf) : List Write → Prop
  | [] => True
  | w :: ws => b.Counts w ∧ (b.write w).AllCount ws

/-- The bodies of a sequence of chunks, one after the other. -/
def bodies (cs : List Chunk) : List UInt8 := cs.flatMap Chunk.body

@[simp]
theorem bodies_nil : bodies [] = [] := rfl

@[simp]
theorem bodies_cons (c : Chunk) (cs : List Chunk) : bodies (c :: cs) = c.body ++ bodies cs := rfl

@[simp]
theorem bodies_append (cs ds : List Chunk) : bodies (cs ++ ds) = bodies cs ++ bodies ds := by
  simp [bodies]

/-- A chunk as this writer sends it before the END chunk. -/
structure Full (bufSize : Nat) (c : Chunk) : Prop where
  type : c.type = .data
  nonempty : c.body ≠ []
  size : c.body.length ≤ bufSize

/-- The invariant of the writer: the stream holds DATA chunks, and their bodies
    followed by the buffer are what was written. -/
structure OutBuf.Sent (b : OutBuf) (cs : List Chunk) (written : List UInt8) : Prop where
  stream : b.os = encodeAll cs
  data : bodies cs ++ b.buffer = written
  room : b.buffer.length < b.bufSize
  fits : b.bufSize ≤ CHUNK_SIZE_MASK
  full : ∀ c ∈ cs, Full b.bufSize c

namespace OutBuf

theorem create_ok {host : Bool} {bufSize : Nat} {b : OutBuf} (made : create host bufSize = .ok b) :
    b = { os := [], bufSize, buffer := [], bigEndian := host } := by
  unfold create at made
  split at made
  · cases made
  · cases made
    rfl

theorem create_sent {host : Bool} {bufSize : Nat} {b : OutBuf} (made : create host bufSize = .ok b)
    (pos : 0 < bufSize) (fits : bufSize ≤ CHUNK_SIZE_MASK) : b.Sent [] [] := by
  cases create_ok made
  exact ⟨rfl, rfl, pos, fits, by simp⟩

theorem dataChunk_empty {b : OutBuf} (empty : b.buffer = []) : b.dataChunk = (0, b) := by
  simp [dataChunk, empty]

theorem dataChunk_nonempty {b : OutBuf} (nonempty : b.buffer ≠ []) :
    b.dataChunk.2 =
      { b with
        os := b.os ++ headerOctets .data b.bigEndian b.buffer.length ++ b.buffer
        buffer := [] } := by
  have some : b.buffer.length ≠ 0 := by simpa using nonempty
  simp [dataChunk, some]

theorem bufSize_dataChunk (b : OutBuf) : b.dataChunk.2.bufSize = b.bufSize := by
  simp only [dataChunk]
  split <;> rfl

theorem bufSize_write (b : OutBuf) (w : Write) : (b.write w).bufSize = b.bufSize := by
  cases w with
  | block s =>
      simp only [write, OutBuf.xsputn]
      split <;> rfl
  | char c =>
      simp only [write, OutBuf.sputc]
      split
      · rfl
      · exact bufSize_dataChunk _
  | flush => exact bufSize_dataChunk b

theorem bufSize_writes (b : OutBuf) (ws : List Write) : (b.writes ws).bufSize = b.bufSize := by
  induction ws generalizing b with
  | nil => rfl
  | cons w ws ih => exact (ih (b.write w)).trans (bufSize_write b w)

theorem Sent.buffering {b : OutBuf} {cs written} (inv : b.Sent cs written) (s : List UInt8)
    (room : b.buffer.length + s.length < b.bufSize) :
    ({ b with buffer := b.buffer ++ s }).Sent cs (written ++ s) :=
  ⟨inv.stream, by simp [← inv.data], by simpa using room, inv.fits, inv.full⟩

/-- Adding to the buffer and then sending it is one more DATA chunk. -/
theorem Sent.flush {b : OutBuf} {cs written} (inv : b.Sent cs written) (s : List UInt8)
    (room : b.buffer.length + s.length ≤ b.bufSize) :
    ∃ more, ({ b with buffer := b.buffer ++ s }).dataChunk.2.Sent (cs ++ more) (written ++ s) := by
  by_cases nothing : b.buffer ++ s = []
  · obtain ⟨-, rfl⟩ := List.append_eq_nil_iff.mp nothing
    rw [dataChunk_empty nothing]
    refine ⟨[], ?_⟩
    simpa only [List.append_nil] using inv.buffering [] inv.room
  · have size : (b.buffer ++ s).length ≤ b.bufSize := by simpa using room
    let c : Chunk := ⟨.data, b.bigEndian, b.buffer ++ s, size.trans inv.fits⟩
    refine ⟨[c], ?_⟩
    rw [dataChunk_nonempty nothing]
    refine ⟨?_, ?_, Nat.zero_lt_of_lt inv.room, inv.fits, ?_⟩
    · simp [inv.stream, c]
    · simp [← inv.data, c]
    · intro d mem
      rcases List.mem_append.mp mem with old | last
      · exact inv.full d old
      · cases List.mem_singleton.mp last
        exact ⟨rfl, nothing, size⟩

theorem Sent.sputc {b : OutBuf} {cs written} (inv : b.Sent cs written) (c : UInt8) :
    ∃ more, (b.sputc c).Sent (cs ++ more) (written ++ [c]) := by
  unfold OutBuf.sputc
  split
  · rename_i room
    exact ⟨[], by simpa using inv.buffering [c] (by simp; omega)⟩
  · exact inv.flush [c] inv.room

theorem Sent.sync {b : OutBuf} {cs written} (inv : b.Sent cs written) :
    ∃ more, b.sync.2.Sent (cs ++ more) written := by
  obtain ⟨more, sent⟩ := inv.flush [] inv.room.le
  simp only [List.append_nil] at sent
  exact ⟨more, sent⟩

/-- Whole chunks cut from a block, with less than a chunk left over. -/
theorem sendWhole_spec {bufSize : Nat} (bigEndian : Bool) (pos : 0 < bufSize)
    (fits : bufSize ≤ CHUNK_SIZE_MASK) (s : List UInt8) :
    ∃ more rest, sendWhole bufSize (headerOctets .data bigEndian bufSize) s s.length =
        (encodeAll more, rest, rest.length) ∧
      bodies more ++ rest = s ∧ rest.length < bufSize ∧ ∀ c ∈ more, Full bufSize c := by
  induction len : s.length using Nat.strong_induction_on generalizing s with
  | _ n ih =>
      subst len
      unfold sendWhole
      split
      · rename_i enough
        obtain ⟨more, rest, sent, split, short, full⟩ :=
          ih (s.drop bufSize).length (by simp; omega) (s.drop bufSize) rfl
        have size : (s.take bufSize).length = bufSize := by simp [enough.2]
        let c : Chunk := ⟨.data, bigEndian, s.take bufSize, size.trans_le fits⟩
        refine ⟨c :: more, rest, ?_, ?_, short, ?_⟩
        · rw [List.length_drop] at sent
          simp [sent, c, enough.2]
        · simp [c, split]
        · intro d mem
          rcases List.mem_cons.mp mem with rfl | mem
          · refine ⟨rfl, ?_, size.le⟩
            exact List.ne_nil_of_length_pos (size ▸ pos)
          · exact full d mem
      · rename_i few
        exact ⟨[], s, by simp, by simp, by omega, by simp⟩

theorem Sent.xsputn {b : OutBuf} {cs written} (inv : b.Sent cs written) (s : List UInt8)
    (counts : b.Counts (.block s)) : ∃ more, (b.xsputn s).2.Sent (cs ++ more) (written ++ s) := by
  have room := inv.room
  simp only [OutBuf.xsputn]
  split
  · rename_i fit
    exact ⟨[], by simpa using inv.buffering s fit⟩
  · rename_i large
    have still : u32 ((s.length : Int) - (b.bufSize - b.buffer.length : Nat)) =
        (s.drop (b.bufSize - b.buffer.length)).length := by
      simp only [OutBuf.Counts] at counts
      rw [List.length_drop, ← Nat.cast_sub (by omega), u32_of_lt (by omega)]
    obtain ⟨more, rest, sent, split, short, full⟩ := sendWhole_spec b.bigEndian
      (Nat.zero_lt_of_lt room) inv.fits (s.drop (b.bufSize - b.buffer.length))
    let body := b.buffer ++ s.take (b.bufSize - b.buffer.length)
    have size : body.length = b.bufSize := by simp [body]; omega
    let c : Chunk := ⟨.data, b.bigEndian, body, size.trans_le inv.fits⟩
    rw [still, sent]
    refine ⟨c :: more, ?_, ?_, ?_, inv.fits, ?_⟩
    · simp only [encodeAll_append, encodeAll_cons, size, c, body, inv.stream, List.append_assoc]
    · simp only [bodies_append, bodies_cons, List.take_length, List.append_assoc, c, body, split,
        List.take_append_drop, ← inv.data]
    · simpa only [List.take_length] using short
    · intro d mem
      rcases List.mem_append.mp mem with old | mem
      · exact inv.full d old
      rcases List.mem_cons.mp mem with rfl | mem
      · exact ⟨rfl, List.ne_nil_of_length_pos (size ▸ Nat.zero_lt_of_lt room), size.le⟩
      · exact full d mem

theorem Sent.write {b : OutBuf} {cs written} (inv : b.Sent cs written) (w : Write)
    (counts : b.Counts w) : ∃ more, (b.write w).Sent (cs ++ more) (written ++ w.bytes) := by
  cases w with
  | block s => exact inv.xsputn s counts
  | char c => exact inv.sputc c
  | flush => simpa only [OutBuf.write, Write.bytes, List.append_nil] using inv.sync

/-- What one write preserves, every run of writes preserves. -/
theorem Sent.writes {b : OutBuf} {cs written} (inv : b.Sent cs written) (ws : List Write)
    (counts : b.AllCount ws) :
    ∃ more, (b.writes ws).Sent (cs ++ more) (written ++ ws.flatMap Write.bytes) := by
  induction ws generalizing b cs written with
  | nil => exact ⟨[], by simpa [OutBuf.writes] using inv⟩
  | cons w ws ih =>
      obtain ⟨first, sent⟩ := inv.write w counts.1
      obtain ⟨more, sent⟩ := ih sent counts.2
      exact ⟨first ++ more, by simpa [OutBuf.writes] using sent⟩

/-- Closing the stream sends the buffer in the END chunk. -/
theorem Sent.endChunk {b : OutBuf} {cs written} (inv : b.Sent cs written) :
    ∃ last : Chunk, last.type = .end ∧ last.body = b.buffer ∧
      b.endChunk.2.os = encodeAll (cs ++ [last]) ∧ bodies (cs ++ [last]) = written :=
  ⟨⟨.end, b.bigEndian, b.buffer, inv.room.le.trans inv.fits⟩, rfl, rfl,
    by simp [OutBuf.endChunk, inv.stream], by simp [inv.data]⟩

end OutBuf

end Libdap.Chunked
