import Libdap.Chunked.InBuf
import Libdap.Chunked.OutBuf

/-! # What a reader still has in front of it

A `Feed` is the reader with its mechanism taken away: the octets in the get
area, the whole chunks not read yet, the octets after the last whole chunk, and
the message of an error chunk that has been met. The operations of
`chunked_inbuf` act on it chunk by chunk, and every state of the buffer that
stands at a chunk boundary holds one.
-/

namespace Libdap.Chunked

open Ints

structure Feed where
  area : List UInt8
  chunks : List Chunk
  tail : List UInt8
  report : Option (List UInt8)

/-- How the chunks came to an end for a block read. -/
inductive Stop where
  | counted
  | failed (message : List UInt8)
  | exhausted
  deriving DecidableEq

structure Drained where
  stored : List UInt8
  stop : Stop
  area : List UInt8
  chunks : List Chunk

/-- Take `left` octets from a sequence of chunks, stopping at an END chunk. -/
def drain : Nat → List Chunk → Drained
  | _, [] => ⟨[], .exhausted, [], []⟩
  | left, c :: cs =>
    match c.type with
    | .err => ⟨[], .failed c.body, [], cs⟩
    | .end => ⟨c.body.take left, .counted, c.body.drop left, cs⟩
    | .data =>
      if c.body.length < left then
        let more := drain (left - c.body.length) cs
        { more with stored := c.body ++ more.stored }
      else ⟨c.body.take left, .counted, c.body.drop left, cs⟩

/-- What is in front of the reader once the chunks are drained. -/
def Drained.feed (d : Drained) (tail : List UInt8) (report : Option (List UInt8)) : Feed :=
  { area := d.area
    chunks := d.chunks
    tail := if d.stop = .exhausted then [] else tail
    report := match d.stop with | .failed message => some message | _ => report }

structure FeedRead where
  stop : Stop
  stored : List UInt8
  feed : Feed

namespace Feed

/-- A block read. The request is counted modulo `2 ^ 32` past the get area. -/
def read (f : Feed) (n : Nat) : FeedRead :=
  if n ≤ f.area.length then ⟨.counted, f.area.take n, { f with area := f.area.drop n }⟩
  else
    let d := drain ((n - f.area.length) % 2 ^ 32) f.chunks
    ⟨d.stop, f.area ++ d.stored, d.feed f.tail f.report⟩

/-- Replace the get area by the next chunk. The message of an error chunk is left
    in the get area. -/
def next (f : Feed) : Option Nat × Feed :=
  match f.chunks with
  | [] => (none, { f with tail := [] })
  | c :: cs =>
    match c.type with
    | .err => (none, ⟨c.body, cs, f.tail, some c.body⟩)
    | .end =>
      if c.body = [] then (none, { f with chunks := cs })
      else (some c.body.length, ⟨c.body, cs, f.tail, f.report⟩)
    | .data => (some c.body.length, ⟨c.body, cs, f.tail, f.report⟩)

/-- One octet. A chunk that brings none is answered with one all the same: the
    octet `stale` that the memory happens to hold. -/
def getc (stale : UInt8) (f : Feed) : Option UInt8 × Feed :=
  match f.area with
  | x :: xs => (some x, { f with area := xs })
  | [] =>
    match f.next with
    | (some _, after) => (some (after.area.headD stale), { after with area := after.area.tail })
    | (none, after) => (none, after)

end Feed

namespace InBuf

/-- The error state a client can ask for. -/
def report (b : InBuf) : Option (List UInt8) := if b.error then some b.errorMessage else none

/-- The buffer stands at a chunk boundary of the stream and holds the feed `f`. -/
structure Holds (b : InBuf) (f : Feed) : Prop where
  stream : b.is.rest = encodeAll f.chunks ++ f.tail
  ended : b.is.eof = true → f.chunks = [] ∧ f.tail = []
  sized : b.buffer.length = b.bufSize
  inside : b.egptr ≤ b.buffer.length
  area : (b.buffer.drop b.gptr).take (b.egptr - b.gptr) = f.area
  report : b.report = f.report

variable (host : Host)

theorem Holds.length_area {b : InBuf} {f : Feed} (holds : b.Holds f) :
    f.area.length = b.egptr - b.gptr := by
  have inside := holds.inside
  rw [← holds.area, List.length_take, List.length_drop]
  omega

theorem reserve_sized {b : InBuf} (sized : b.buffer.length = b.bufSize) {needed size : Nat}
    (enough : needed ≤ size) :
    (b.reserve host needed size).buffer.length = (b.reserve host needed size).bufSize ∧
      needed ≤ (b.reserve host needed size).buffer.length := by
  unfold reserve
  split
  · simpa [bufferAlloc] using enough
  · exact ⟨sized, by omega⟩

@[simp]
theorem report_reserve (b : InBuf) (needed size : Nat) :
    (b.reserve host needed size).report = b.report := by
  unfold reserve
  split <;> rfl

/-- Filling the buffer with octets the stream really has puts them in the get area. -/
theorem holds_fill {b : InBuf} {xs : List UInt8} {cs tail report} {needed size : Nat}
    (stream : b.is = ⟨xs ++ (encodeAll cs ++ tail), false⟩) (sized : b.buffer.length = b.bufSize)
    (told : b.report = report) (len : xs.length = needed) (enough : needed ≤ size) :
    (((b.reserve host needed size).fill needed).setg needed).Holds ⟨xs, cs, tail, report⟩ := by
  obtain ⟨sized, room⟩ := reserve_sized host sized enough
  have got : b.is.read needed = (xs, ⟨encodeAll cs ++ tail, false⟩) :=
    InStream.read_of_append (by rw [stream]) (by rw [stream]) len
  subst len
  refine ⟨?_, ?_, ?_, ?_, ?_, ?_⟩
  · simp [fill, setg, got]
  · simp [fill, setg, got]
  · simp only [fill, setg, is_reserve, got, List.length_append, List.length_drop]
    omega
  · simp [fill, setg, got]
  · simp [fill, setg, got]
  · exact (report_reserve host b _ size).trans told

/-- At a whole chunk the header is read and its two masks say what the chunk is. -/
theorem readHeader_chunk {b : InBuf} {area c cs tail report}
    (holds : b.Holds ⟨area, c :: cs, tail, report⟩) :
    ∃ twiddle set, b.readHeader host = (some (headerWord c.type c.bigEndian c.body.length),
      { b with
        is := ⟨c.body ++ (encodeAll cs ++ tail), false⟩
        twiddleBytes := twiddle
        setTwiddle := set }) := by
  have good : b.is.eof = false := by
    apply Bool.eq_false_iff.mpr
    intro ended
    simpa using (holds.ended ended).1
  have got : b.is.read 4 = (headerOctets c.type c.bigEndian c.body.length,
      ⟨c.body ++ (encodeAll cs ++ tail), false⟩) := by
    apply InStream.read_of_append good _ (length_headerOctets ..)
    simpa using holds.stream
  have header := ofHeaderOctets_headerOctets c.type c.bigEndian c.fits
  simp only [readHeader, got, header]
  cases set : b.setTwiddle with
  | true => exact ⟨b.twiddleBytes, true, by simp [← set]⟩
  | false => exact ⟨_, true, rfl⟩

/-- Past the last whole chunk there is no complete header. -/
theorem readHeader_exhausted {b : InBuf} {area tail report}
    (holds : b.Holds ⟨area, [], tail, report⟩) (short : tail.length < 4) :
    b.readHeader host = (none, { b with is := ⟨[], true⟩ }) := by
  have stream := holds.stream
  simp only [encodeAll_nil, List.nil_append] at stream
  have got : (b.is.read 4).2 = ⟨[], true⟩ := by
    cases ended : b.is.eof with
    | true =>
        obtain ⟨-, empty⟩ := holds.ended ended
        rw [InStream.read_at_eof ended]
        exact congrArg₂ InStream.mk (stream.trans empty) ended
    | false => rw [InStream.read_short ended (by rw [stream]; exact short)]
  simp [readHeader, got]

theorem Holds.exhausted {b : InBuf} {area tail report} (holds : b.Holds ⟨area, [], tail, report⟩) :
    ({ b with is := ⟨[], true⟩ }).Holds ⟨area, [], [], report⟩ :=
  ⟨rfl, fun _ => ⟨rfl, rfl⟩, holds.sized, holds.inside, holds.area, holds.report⟩

end InBuf

end Libdap.Chunked
