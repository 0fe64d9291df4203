import Libdap.Chunked.Feed

/-! # The input buffer refines the feed

Every operation of `chunked_inbuf` on a buffer that holds a feed returns what
the operation of the feed returns and leaves a buffer that holds the feed it
leaves. The one thing asked of the feed is that the operation finds whole chunks
up to where it stops.
-/

namespace Libdap.Chunked

open Ints

/-- A count is returned modulo `2 ^ 32`, so a request that has wrapped makes no
    difference to it. -/
theorem notEof_congr {x y : Int} (same : x % 2 ^ 32 = y % 2 ^ 32) : notEof x = notEof y := by
  have shifted : i32 x = i32 y := by
    simp only [i32]
    omega
  simp only [notEof, shifted]

/-- The bytes after the last whole chunk do not even make up a header. -/
def Feed.Short (f : Feed) : Prop := f.tail.length < 4

/-- A block read finds whole chunks up to where it stops, or nothing that could
    be taken for one. -/
def Feed.Whole (f : Feed) (n : Nat) : Prop :=
  n ≤ f.area.length ∨ f.Short ∨ (f.read n).stop ≠ .exhausted

theorem drain_length_le (left : Nat) (chunks : List Chunk) :
    (drain left chunks).stored.length ≤ left := by
  induction chunks generalizing left with
  | nil => simp [drain]
  | cons c cs ih =>
      simp only [drain]
      split
      · simp
      · simp
      split
      · rename_i more
        have rest := ih (left - c.body.length)
        simp only [List.length_append]
        omega
      · simp

namespace InBuf

variable (host : Host)

theorem nextChunk_refines {b : InBuf} {f : Feed} (holds : b.Holds f)
    (whole : f.chunks = [] → f.Short) :
    (b.nextChunk host).1 = f.next.1 ∧ (b.nextChunk host).2.Holds f.next.2 := by
  obtain ⟨area, chunks, tail, report⟩ := f
  cases chunks with
  | nil =>
      have none := readHeader_exhausted host holds (whole rfl)
      simp only [nextChunk, none, Feed.next]
      exact ⟨trivial, holds.exhausted⟩
  | cons c cs =>
      obtain ⟨twiddle, set, some⟩ := readHeader_chunk host holds
      have size := headerWord_size c.type c.bigEndian c.fits
      have type := headerWord_type c.type c.bigEndian c.fits
      have filled := holds_fill host (b := { b with
          is := ⟨c.body ++ (encodeAll cs ++ tail), false⟩
          twiddleBytes := twiddle
          setTwiddle := set }) rfl holds.sized holds.report rfl (le_refl c.body.length)
      simp only [nextChunk, some, size, type, Feed.next]
      cases kind : c.type with
      | data =>
          simp only [ChunkType.code, CHUNK_DATA, CHUNK_END, OfNat.zero_ne_ofNat, and_false, if_false, if_true]
          exact ⟨trivial, filled⟩
      | «end» =>
          by_cases empty : c.body = []
          · simp only [ChunkType.code, empty, List.length_nil, and_self, if_true]
            refine ⟨trivial, rfl, by simp [reserve], ?_, ?_, ?_, ?_⟩
            all_goals simp only [reserve, gt_iff_lt, Nat.not_lt_zero, if_false]
            · exact holds.sized
            · exact holds.inside
            · exact holds.area
            · exact holds.report
          · have some : ¬ (c.body.length = 0 ∧ True) := by simpa using empty
            simp only [ChunkType.code, if_neg some, if_neg empty, if_true]
            exact ⟨trivial, filled⟩
      | err =>
          have taken := filled.area
          simp only [setg, List.drop_zero, Nat.sub_zero] at taken
          simp only [ChunkType.code, CHUNK_DATA, CHUNK_END, CHUNK_ERR, Nat.reduceEqDiff, OfNat.ofNat_ne_zero, and_false, if_false, if_true]
          refine ⟨trivial, filled.stream, filled.ended, filled.sized, filled.inside, filled.area, ?_⟩
          simp only [InBuf.report, fail, setg, if_true]
          rw [taken]

theorem peek_eq {b : InBuf} {f : Feed} (holds : b.Holds f) : b.peek = f.area.headD b.peek := by
  cases area : f.area with
  | nil => rfl
  | cons x xs =>
      have first : ((b.buffer.drop b.gptr).take (b.egptr - b.gptr))[0]? = some x := by
        rw [holds.area, area]
        rfl
      rw [List.getElem?_take, List.getElem?_drop] at first
      split at first
      · simp only [Nat.add_zero] at first
        simp [peek, first]
      · cases first

theorem Holds.bump {b : InBuf} {f : Feed} (holds : b.Holds f) :
    ({ b with gptr := b.gptr + 1 }).Holds { f with area := f.area.tail } := by
  refine ⟨holds.stream, holds.ended, holds.sized, holds.inside, ?_, holds.report⟩
  have tail := congrArg (List.drop 1) holds.area
  rw [List.drop_take, List.drop_drop, Nat.sub_sub, List.drop_one] at tail
  exact tail

/-- What is read is the octet at the head of the feed. After an empty chunk it is
    one that was never sent, and the get pointer has left the get area. -/
theorem sbumpc_refines {b : InBuf} {f : Feed} (holds : b.Holds f)
    (whole : f.area = [] → f.chunks = [] → f.Short) :
    ∃ stale, (b.sbumpc host).1 = (f.getc stale).1 ∧ (b.sbumpc host).2.Holds (f.getc stale).2 := by
  have len := holds.length_area
  cases area : f.area with
  | cons x xs =>
      have more : b.gptr < b.egptr := by
        rw [area, List.length_cons] at len
        omega
      have first := peek_eq holds
      have after := holds.bump
      simp only [area, List.headD_cons, List.tail_cons] at first after
      simp only [sbumpc, underflow, if_pos more, Feed.getc, area, first]
      exact ⟨0, trivial, after⟩
  | nil =>
      have empty : ¬ b.gptr < b.egptr := by
        rw [area, List.length_nil] at len
        omega
      obtain ⟨next, after⟩ := nextChunk_refines host holds (whole area)
      simp only [sbumpc, underflow, if_neg empty, Feed.getc, area]
      generalize b.nextChunk host = read at next after ⊢
      obtain ⟨size, b'⟩ := read
      generalize f.next = found at next after ⊢
      obtain ⟨size', f'⟩ := found
      cases next
      cases size with
      | none => exact ⟨0, rfl, after⟩
      | some size =>
          refine ⟨b'.peek, ?_, after.bump⟩
          simp only [← peek_eq after]

/-- The get pointer has not passed the end of the get area. -/
def Inside (b : InBuf) : Prop := b.gptr ≤ b.egptr

theorem inside_reserve {b : InBuf} (inside : b.Inside) (needed size : Nat) :
    (b.reserve host needed size).Inside := by
  unfold reserve
  split
  · exact le_refl 0
  · exact inside

theorem inside_readHeader {b : InBuf} (inside : b.Inside) : (b.readHeader host).2.Inside := by
  simp only [readHeader]
  split
  · exact inside
  split
  · exact inside
  · exact inside

theorem inside_nextChunk {b : InBuf} (inside : b.Inside) : (b.nextChunk host).2.Inside := by
  have read := inside_readHeader host inside
  simp only [nextChunk]
  split
  · rename_i b₁ taken
    rw [taken] at read
    exact read
  · rename_i header b₁ taken
    rw [taken] at read
    split
    · exact inside_reserve host read _ _
    split
    · exact Nat.zero_le _
    split
    · exact Nat.zero_le _
    split
    · exact Nat.zero_le _
    · exact Nat.zero_le _

/-- Only an empty DATA chunk makes the get pointer leave the get area. -/
theorem inside_sbumpc {b : InBuf} {f : Feed} (holds : b.Holds f) (inside : b.Inside)
    (whole : f.area = [] → f.chunks = [] → f.Short)
    (nonempty : f.area = [] → f.next.1.isSome → f.next.2.area ≠ []) : (b.sbumpc host).2.Inside := by
  have next := inside_nextChunk host inside
  simp only [sbumpc, underflow]
  by_cases more : b.gptr < b.egptr
  · simp only [if_pos more]
    exact more
  · have area : f.area = [] := by
      have len := holds.length_area
      exact List.length_eq_zero_iff.mp (by omega)
    obtain ⟨size, after⟩ := nextChunk_refines host holds (whole area)
    have found := nonempty area
    rw [← size] at found
    simp only [if_neg more]
    generalize b.nextChunk host = read at next after found ⊢
    obtain ⟨size, b'⟩ := read
    cases size with
    | none => exact next
    | some size =>
        have some := List.length_pos_of_ne_nil (found rfl)
        rw [after.length_area] at some
        exact Nat.lt_of_sub_pos some

/-- The answer of the block loop is that of draining the chunks. -/
structure Drains (num left : Nat) (stored tail : List UInt8) (report : Option (List UInt8))
    (d : Drained) (r : BlockRead) : Prop where
  stored : r.stored = stored ++ d.stored
  ret : r.ret = if d.stop = .counted then notEof (num - (left - d.stored.length : Nat)) else eof
  buf : r.buf.Holds (d.feed tail report)
  inside : r.buf.Inside

/-- An error chunk is read past the buffer. -/
theorem holds_message {b : InBuf} {xs : List UInt8} {cs tail}
    (stream : b.is = ⟨xs ++ (encodeAll cs ++ tail), false⟩) (sized : b.buffer.length = b.bufSize) :
    let message := b.is.read xs.length
    ((({ b with is := message.2 }).setg 0).fail
      (message.1 ++ List.replicate (xs.length - message.1.length) 0)).Holds ⟨[], cs, tail, some xs⟩ := by
  have got : b.is.read xs.length = (xs, ⟨encodeAll cs ++ tail, false⟩) :=
    InStream.read_of_append (by rw [stream]) (by rw [stream]) rfl
  simp only [got, Nat.sub_self, List.replicate_zero, List.append_nil]
  exact ⟨rfl, nofun, sized, Nat.zero_le _, by simp [setg, fail], by simp [InBuf.report, fail]⟩

/-- What a request leaves of a chunk goes to the buffer. -/
theorem holds_leftover {b : InBuf} {xs : List UInt8} {cs tail report} {left : Nat}
    (stream : b.is = ⟨xs ++ (encodeAll cs ++ tail), false⟩) (sized : b.buffer.length = b.bufSize)
    (told : b.report = report) (few : left ≤ xs.length) :
    (b.is.read left).1 = xs.take left ∧
    ((({ b with is := (b.is.read left).2 }.reserve host (xs.length - left) xs.length).fill
      (xs.length - left)).setg (xs.length - left)).Holds ⟨xs.drop left, cs, tail, report⟩ := by
  have got : b.is.read left = (xs.take left, ⟨xs.drop left ++ (encodeAll cs ++ tail), false⟩) := by
    apply InStream.read_of_append (by rw [stream])
    · simp only [stream, ← List.append_assoc, List.take_append_drop]
    · exact List.length_take_of_le few
  rw [got]
  refine ⟨rfl, ?_⟩
  exact holds_fill host rfl sized told (by simp) (Nat.sub_le _ _)

/-- A chunk that a request takes as a whole goes past the buffer, which may
    nevertheless be made to fit it. -/
theorem holds_direct {b : InBuf} {xs : List UInt8} {cs tail report}
    (stream : b.is = ⟨xs ++ (encodeAll cs ++ tail), false⟩) (sized : b.buffer.length = b.bufSize)
    (told : b.report = report) (empty : b.egptr ≤ b.gptr) (inside : b.egptr ≤ b.buffer.length) :
    (b.is.read xs.length).1 = xs ∧
    ({ b.reserve host xs.length xs.length with is := (b.is.read xs.length).2 }).Holds
      ⟨[], cs, tail, report⟩ := by
  have got : b.is.read xs.length = (xs, ⟨encodeAll cs ++ tail, false⟩) :=
    InStream.read_of_append (by rw [stream]) (by rw [stream]) rfl
  rw [got]
  refine ⟨rfl, rfl, nofun, (reserve_sized host sized (le_refl _)).1, ?_, ?_, ?_⟩
  · unfold reserve
    split
    · exact Nat.zero_le _
    · exact inside
  · unfold reserve
    split
    · simp [bufferAlloc]
    · simp [Nat.sub_eq_zero_of_le empty]
  · exact (report_reserve host b _ _).trans told

/-- The loop of `xsgetn` drains the chunks. -/
theorem blockLoop_refines (num left : Nat) (stored : List UInt8) {b : InBuf} {chunks tail report}
    (holds : b.Holds ⟨[], chunks, tail, report⟩) (inside : b.Inside)
    (whole : tail.length < 4 ∨ (drain left chunks).stop ≠ .exhausted) :
    Drains num left stored tail report (drain left chunks) (b.blockLoop host num left stored) := by
  induction chunks generalizing left stored b with
  | nil =>
      have short : tail.length < 4 := by simpa [drain] using whole
      have none := readHeader_exhausted host holds short
      unfold blockLoop
      split
      · rename_i b₁ taken
        cases none.symm.trans taken
        exact ⟨by simp [drain], rfl, holds.exhausted, inside⟩
      · rename_i header b₁ taken
        cases none.symm.trans taken
  | cons c cs ih =>
      obtain ⟨twiddle, set, some⟩ := readHeader_chunk host holds
      have size := headerWord_size c.type c.bigEndian c.fits
      have type := headerWord_type c.type c.bigEndian c.fits
      have empty : b.egptr ≤ b.gptr := by
        have none := holds.length_area
        simp only [List.length_nil] at none
        omega
      let b₁ : InBuf := { b with
        is := ⟨c.body ++ (encodeAll cs ++ tail), false⟩
        twiddleBytes := twiddle
        setTwiddle := set }
      have told : b₁.report = report := holds.report
      have inside₁ : b₁.Inside := inside
      have whole₁ := holds_direct host (b := b₁) rfl holds.sized told empty holds.inside
      have kept₁ := inside_reserve host inside₁ c.body.length c.body.length
      unfold blockLoop
      split
      · rename_i b₂ taken
        cases some.symm.trans taken
      · rename_i header b₂ taken
        cases some.symm.trans taken
        simp only [size, type]
        cases kind : c.type with
        | err =>
            simp only [ChunkType.code, CHUNK_ERR, if_true, drain, kind]
            exact ⟨by simp, rfl, holds_message (b := b₁) rfl holds.sized, le_refl 0⟩
        | «end» =>
            simp only [ChunkType.code, CHUNK_ERR, CHUNK_END, CHUNK_DATA, Nat.reduceEqDiff, if_false,
              drain, kind, true_or, if_true]
            split
            · rename_i nothing
              have none : c.body = [] := List.length_eq_zero_iff.mp nothing.1
              refine ⟨by simp [none], by simp [none], ?_, inside⟩
              simp only [Drained.feed, none, List.drop_nil]
              exact ⟨rfl, fun ended => absurd ended Bool.false_ne_true, holds.sized, holds.inside, holds.area, holds.report⟩
            split
            · rename_i few
              obtain ⟨got, after⟩ := holds_leftover host (b := b₁) rfl holds.sized told few.le
              refine ⟨congrArg (stored ++ ·) got, ?_, after, Nat.zero_le _⟩
              simp [few.le]
            · rename_i many
              have all : c.body.length ≤ left := Nat.le_of_not_lt many
              refine ⟨?_, ?_, ?_, kept₁⟩
              · rw [List.take_of_length_le all]
                exact congrArg (stored ++ ·) whole₁.1
              · rw [List.take_of_length_le all]
                simp
              · simp only [Drained.feed, List.drop_of_length_le all]
                exact whole₁.2
        | data =>
            simp only [ChunkType.code, CHUNK_ERR, CHUNK_END, CHUNK_DATA, if_false,
              OfNat.zero_ne_ofNat, and_false, or_true, if_true]
            split
            · rename_i few
              obtain ⟨got, after⟩ := holds_leftover host (b := b₁) rfl holds.sized told few.le
              simp only [drain, kind, if_neg (Nat.not_lt.mpr few.le)]
              refine ⟨congrArg (stored ++ ·) got, ?_, after, Nat.zero_le _⟩
              simp [few.le]
            split
            · rename_i many done
              have all : c.body.length = left := by omega
              simp only [drain, kind, if_neg (Nat.not_lt.mpr all.ge)]
              refine ⟨?_, ?_, ?_, kept₁⟩
              · rw [List.take_of_length_le all.le]
                exact congrArg (stored ++ ·) whole₁.1
              · rw [List.take_of_length_le all.le]
                simp [all]
              · simp only [Drained.feed, List.drop_of_length_le all.le]
                exact whole₁.2
            · rename_i many more
              have all : c.body.length < left := by omega
              simp only [drain, kind, if_pos all] at whole ⊢
              have rest := ih (left - c.body.length) (stored ++ (b₁.is.read c.body.length).1) whole₁.2
                kept₁ whole
              refine ⟨?_, ?_, rest.buf, rest.inside⟩
              · rw [rest.stored, whole₁.1, List.append_assoc]
              · rw [rest.ret, List.length_append, Nat.sub_sub]

/-- The answer of a block read is that of reading from the feed. -/
structure Answers (q : FeedRead) (r : BlockRead) : Prop where
  stored : r.stored = q.stored
  ret : r.ret = if q.stop = .counted then notEof q.stored.length else eof
  buf : r.buf.Holds q.feed
  inside : r.buf.Inside

theorem xsgetn_refines {b : InBuf} {f : Feed} {n : Nat} (holds : b.Holds f) (inside : b.Inside)
    (whole : f.Whole n) : Answers (f.read n) (b.xsgetn host n) := by
  have len := holds.length_area
  simp only [Inside] at inside
  by_cases inArea : n ≤ f.area.length
  · have enough : (n : Int) ≤ (b.egptr : Int) - b.gptr := by omega
    have taken : (b.buffer.drop b.gptr).take n = f.area.take n := by
      rw [← holds.area, List.take_take]
      congr 1
      omega
    have left : (b.buffer.drop (b.gptr + n)).take (b.egptr - (b.gptr + n)) = f.area.drop n := by
      simp only [← holds.area, List.drop_take, List.drop_drop]
      congr 1
      omega
    simp only [xsgetn, if_pos enough, Feed.read, if_pos inArea]
    refine ⟨taken, ?_, ⟨holds.stream, holds.ended, holds.sized, holds.inside, left, holds.report⟩, ?_⟩
    · simp only [if_true, List.length_take_of_le inArea]
    · simp only [Inside]
      omega
  · have short : ¬ (n : Int) ≤ (b.egptr : Int) - b.gptr := by omega
    have emptied : ({ b with gptr := b.egptr }).Holds ⟨[], f.chunks, f.tail, f.report⟩ :=
      ⟨holds.stream, holds.ended, holds.sized, holds.inside, by simp, holds.report⟩
    obtain ⟨left, reduced⟩ : ∃ left, left = (n - f.area.length) % 2 ^ 32 := ⟨_, rfl⟩
    have asked : b.xsgetn host n = ({ b with gptr := b.egptr }).blockLoop host n left f.area := by
      simp only [xsgetn, if_neg short]
      split
      · have wrapped : u32 ((u32 n : Int) - (b.egptr - b.gptr : Nat)) = left := by
          simp only [u32]
          omega
        rw [wrapped, holds.area]
      · have none : f.area = [] := List.length_eq_zero_iff.mp (by omega)
        have same : b.gptr = b.egptr := by omega
        have kept : ({ b with gptr := b.egptr } : InBuf) = b := by
          cases b
          cases same
          rfl
        simp only [reduced, none, kept, u32_ofNat, List.length_nil, Nat.sub_zero]
    have found : f.tail.length < 4 ∨ (drain left f.chunks).stop ≠ .exhausted := by
      simp only [Feed.Whole, Feed.Short, Feed.read, if_neg inArea, ← reduced] at whole
      exact whole.resolve_left inArea
    have drains := blockLoop_refines host n left f.area emptied (le_refl b.egptr) found
    have bound := drain_length_le left f.chunks
    simp only [asked, Feed.read, if_neg inArea, ← reduced]
    refine ⟨drains.stored, ?_, drains.buf, drains.inside⟩
    rw [drains.ret]
    split
    · apply notEof_congr
      rw [List.length_append]
      omega
    · rfl

end InBuf

end Libdap.Chunked
