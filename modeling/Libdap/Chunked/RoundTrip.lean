import Libdap.Chunked.BlockReads

/-! # Round trip of a chunked stream

What is written to a `chunked_outbuf` before its END chunk is what block reads of
a `chunked_inbuf` give back, in order and up to the end of the stream, exactly
when every read meets its conditions. They cannot be dropped: the body of a
nonempty END chunk that a read has only taken a part of is lost to a read that
asks for more than the rest of it.
-/

namespace Libdap.Chunked

open Ints

/-- The header before each chunk gives the size of its body in 24 bits, which is
    never more than the size of the writer's buffer. -/
def WellSized (bufSize : Nat) (cs : List Chunk) : Prop :=
  ∀ c ∈ cs, ofHeaderOctets (c.encode.take 4) &&& CHUNK_SIZE_MASK = (c.encode.drop 4).length ∧
    c.encode.drop 4 = c.body ∧ c.body.length ≤ bufSize

namespace InBuf

variable (host : Host)

/-- A block read of `n` octets when `left` is still to come: it copies and counts
    what comes next, and when nothing does it reports the end of the stream, at
    the latest with the read after it. -/
structure Gives (b : InBuf) (left : List UInt8) (n : Nat) : Prop where
  stored : (b.xsgetn host n).stored = left.take n
  count : left ≠ [] ∨ n = 0 → (b.xsgetn host n).ret = min n left.length
  ended : left = [] → 0 < n → (b.xsgetn host n).ret = eof ∨
    ((b.xsgetn host n).ret = 0 ∧ ∀ m, 0 < m → ((b.xsgetn host n).buf.xsgetn host m).ret = eof)

/-- Every block read of the run gives what comes next. -/
def Delivers (b : InBuf) (left : List UInt8) : List Nat → Prop
  | [] => True
  | n :: ns => b.Gives host left n ∧ (b.xsgetn host n).buf.Delivers (left.drop n) ns

/-- The octets that a client is told it has been given, one read after the other. -/
def delivered (b : InBuf) : List Nat → List UInt8
  | [] => []
  | n :: ns =>
    (b.xsgetn host n).stored.take (b.xsgetn host n).ret.toNat ++ (b.xsgetn host n).buf.delivered ns

theorem Delivers.concat {b : InBuf} {left : List UInt8} {ns} (delivers : b.Delivers host left ns) :
    b.delivered host ns = left.take ns.sum := by
  induction ns generalizing b left with
  | nil => rfl
  | cons n ns ih =>
      obtain ⟨gives, rest⟩ := delivers
      have first : (b.xsgetn host n).stored.take (b.xsgetn host n).ret.toNat = left.take n := by
        rw [gives.stored]
        by_cases none : left = []
        · simp [none]
        · rw [gives.count (.inl none), List.take_take, List.take_eq_take_iff]
          omega
      rw [delivered, first, ih rest, List.sum_cons, List.take_add]

namespace Ready

variable {b : InBuf} {f : Feed}

/-- At the end of the stream a read reports it, or takes the empty END chunk and
    leaves it to the next. -/
theorem reads_end (ready : b.Ready .end f) (filled : NoEmpty f.chunks) (nothing : f.payload = [])
    {n : Nat} (pos : 0 < n) : (b.xsgetn host n).ret = eof ∨
      ((b.xsgetn host n).ret = 0 ∧ ∀ m, 0 < m → ((b.xsgetn host n).buf.xsgetn host m).ret = eof) := by
  have answers := ready.answers host n
  have after := ready.xsgetn host n
  obtain ⟨area, chunks⟩ := List.append_eq_nil_iff.mp nothing
  have past : f.area.length < n := by simpa [area] using pos
  rcases ready.toward.only_last filled chunks with none | ⟨c, only, kind⟩
  · left
    rw [answers.ret, if_neg (by rw [Feed.read_exhausted none past]; nofun)]
  · right
    have counted := Feed.read_counted_end ready.toward n (by rw [only]; nofun)
    have stored : (f.read n).stored = [] := by rw [Feed.read_stored ready.toward, nothing, List.take_nil]
    refine ⟨by rw [answers.ret, if_pos counted, stored]; rfl, ?_⟩
    intro m pos
    have gone : (f.read n).feed.chunks = [] := by
      simp [Feed.read, Nat.not_le.mpr past, only, drain, kind, Drained.feed]
    have empty : (f.read n).feed.area = [] := by
      have left := Feed.read_payload ready.toward n
      rw [nothing, List.drop_nil] at left
      exact (List.append_eq_nil_iff.mp left).1
    have exhausted := Feed.read_exhausted gone (n := m) (by simpa [empty] using pos)
    rw [(after.answers host m).ret, if_neg (by rw [exhausted]; nofun)]

theorem gives_iff (ready : b.Ready .end f) (filled : NoEmpty f.chunks) (n : Nat) :
    b.Gives host f.payload n ↔ b.Meets .end f.payload.length n := by
  constructor
  · intro gives
    exact ready.meets_of_read host (fun _ _ => rfl) gives.stored (fun some => gives.count (.inl some))
  · intro meets
    obtain ⟨stored, counts⟩ := ready.meets_read host meets
    exact ⟨stored, fun asked => (counts asked).2, fun none pos => ready.reads_end host filled none pos⟩

/-- What one read gives and requires, every run of reads does. -/
theorem delivers_iff (ready : b.Ready .end f) (filled : NoEmpty f.chunks) (ns : List Nat) :
    b.Delivers host f.payload ns ↔ b.AllMeet host .end f.payload.length ns := by
  induction ns generalizing b f with
  | nil => exact Iff.rfl
  | cons n ns ih =>
      simp only [Delivers, AllMeet, ready.gives_iff host filled]
      apply and_congr_right
      intro meets
      obtain ⟨stored, -⟩ := ready.meets_read host meets
      have left : (f.read n).feed.payload = f.payload.drop n := by
        have enough := ready.reduced_iff.mp meets.reduced
        have bound := f.request_le n
        rw [Feed.read_payload ready.toward, List.drop_eq_drop_iff]
        omega
      have after := ih (ready.xsgetn host n) (filled.read n)
      rw [left, List.length_drop] at after
      exact after

end Ready

end InBuf

namespace OutBuf

/-- The chunks of a closed stream are DATA chunks with a body and the END chunk,
    and their bodies are what was written. -/
theorem emitted {b : OutBuf} (inv : b.Sent [] []) (ws : List Write) (counts : b.AllCount ws) :
    ∃ cs, (b.writes ws).endChunk.2.os = encodeAll cs ∧ Toward .end cs ∧ NoEmpty cs ∧
      payload cs = ws.flatMap Write.bytes ∧ ∀ c ∈ cs, c.body.length ≤ (b.writes ws).bufSize := by
  obtain ⟨more, sent⟩ := inv.writes ws counts
  obtain ⟨last, kind, body, stream, data⟩ := sent.endChunk
  rw [List.nil_append] at sent stream data
  refine ⟨more ++ [last], stream, ?_, ?_, ?_, ?_⟩
  · have full := sent.full
    clear sent stream data
    induction more with
    | nil => exact .last kind
    | cons c cs ih =>
        have first := full c (List.mem_cons_self ..)
        have rest := ih (fun d mem => full d (List.mem_cons_of_mem c mem))
        exact .data first.type (by simp) rest
  · intro c mem type
    rcases List.mem_append.mp mem with mem | mem
    · exact (sent.full c mem).nonempty
    · cases List.mem_singleton.mp mem
      cases kind.symm.trans type
  · rw [← List.nil_append (ws.flatMap Write.bytes), ← data]
    have full := sent.full
    clear sent stream data
    induction more with
    | nil => simp [payload, kind]
    | cons c cs ih =>
        have first := (full c (List.mem_cons_self ..)).type
        have rest := ih (fun d mem => full d (List.mem_cons_of_mem c mem))
        simp [payload, first, rest]
  · intro c mem
    rcases List.mem_append.mp mem with mem | mem
    · exact (sent.full c mem).size
    · cases List.mem_singleton.mp mem
      rw [body]
      exact sent.room.le

end OutBuf

theorem wellSized {bufSize : Nat} {cs : List Chunk} (sizes : ∀ c ∈ cs, c.body.length ≤ bufSize) :
    WellSized bufSize cs := by
  intro c mem
  have split : c.encode.take 4 = headerOctets c.type c.bigEndian c.body.length ∧
      c.encode.drop 4 = c.body := by
    have len := length_headerOctets c.type c.bigEndian c.body.length
    exact ⟨List.take_left' len, List.drop_left' len⟩
  refine ⟨?_, split.2, sizes c mem⟩
  rw [split.1, split.2, ofHeaderOctets_headerOctets _ _ c.fits, headerWord_size _ _ c.fits]

/-- Every round trip of a chunked stream in which the writer's counts do not wrap:
    the reader delivers what was written exactly when its reads meet their
    conditions, and the headers on the way are right in any case. -/
theorem roundTrip (host : Host) (senderBigEndian : Bool) {bufSize : Nat} {size : Int}
    (atLeast : 2 ≤ bufSize) (atMost : bufSize ≤ 0xFFFFFF)
    {w : OutBuf} (opened : OutBuf.create senderBigEndian bufSize = .ok w)
    (ws : List Write) (counts : w.AllCount ws)
    {r : InBuf} (attached : InBuf.create host (w.writes ws).endChunk.2.os size = .ok r)
    (ns : List Nat) :
    let written := ws.flatMap Write.bytes
    (∃ cs, (w.writes ws).endChunk.2.os = encodeAll cs ∧ WellSized bufSize cs) ∧
    (r.Delivers host written ns ↔ r.AllMeet host .end written.length ns) ∧
    (r.AllMeet host .end written.length ns → r.delivered host ns = written.take ns.sum) := by
  intro written
  have inv := OutBuf.create_sent opened (by omega) atMost
  obtain ⟨cs, stream, toward, filled, whole, sizes⟩ := OutBuf.emitted inv ws counts
  rw [stream] at attached
  have ready := InBuf.create_ready host toward attached
  have same : Feed.payload ⟨[], cs, [], none⟩ = written := whole
  have reads := ready.delivers_iff host filled ns
  rw [same] at reads
  have kept : (w.writes ws).bufSize = bufSize := by
    rw [OutBuf.bufSize_writes, OutBuf.create_ok opened]
  rw [kept] at sizes
  exact ⟨⟨cs, stream, wellSized sizes⟩, reads, fun meet => (reads.mpr meet).concat host⟩

theorem roundTrip_five : ∃ w r, OutBuf.create false 4 = .ok w ∧
    InBuf.create littleHost (w.writes [.block [1, 2, 3, 4, 5], .char 6]).endChunk.2.os 3 = .ok r ∧
    r.delivered littleHost [3, 9] = [1, 2, 3, 4, 5, 6] := by
  refine ⟨_, _, rfl, rfl, ?_⟩
  have counts : OutBuf.AllCount ⟨[], 4, [], false⟩ [.block [1, 2, 3, 4, 5], .char 6] :=
    ⟨show 5 < 4 - 0 + 2 ^ 32 by decide, trivial, trivial⟩
  exact (@roundTrip littleHost false 4 3 (by decide) (by decide) _ rfl _ counts _ rfl [3, 9]).2.2
    (by decide +kernel)

/-- Three octets that leave with the END chunk, read as one and then the rest and
    more: the second read copies two octets and returns end of file. -/
theorem endBody_lost : ∃ w r, OutBuf.create false 4 = .ok w ∧
    InBuf.create littleHost (w.writes [.block [1, 2, 3]]).endChunk.2.os 4 = .ok r ∧
    r.delivered littleHost [1, 5] = [1] ∧ ¬ r.Delivers littleHost [1, 2, 3] [1, 5] := by
  refine ⟨_, _, rfl, rfl, by decide +kernel, ?_⟩
  intro delivers
  have counted := delivers.2.1.count (.inl (by decide))
  revert counted
  decide +kernel

end Libdap.Chunked
