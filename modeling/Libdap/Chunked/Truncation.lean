import Libdap.Chunked.BlockReads

/-! # Truncated streams

A stream that is cut off holds some whole chunks and then a piece of one. As
long as a request does not reach into a body that was cut, the octets handed
over are the first of those really there and every block read counts what it has
copied. Nothing in the reader looks at how much of a body it was given, so a
request that does reach a cut body is answered with octets nobody sent.
-/

namespace Libdap.Chunked

open Ints

/-- The whole chunks among the first `m` octets of a stream, and the rest of these. -/
def cut : List Chunk → Nat → List Chunk × List UInt8
  | [], _ => ([], [])
  | c :: cs, m =>
    if 4 + c.body.length ≤ m then
      (c :: (cut cs (m - (4 + c.body.length))).1, (cut cs (m - (4 + c.body.length))).2)
    else ([], c.encode.take m)

/-- The octets of bodies among the first `m` octets of a stream. -/
def present : List Chunk → Nat → List UInt8
  | [], _ => []
  | c :: cs, m => c.body.take (m - 4) ++ present cs (m - (4 + c.body.length))

theorem take_encodeAll (cs : List Chunk) (m : Nat) :
    (encodeAll cs).take m = encodeAll (cut cs m).1 ++ (cut cs m).2 := by
  induction cs generalizing m with
  | nil => simp [cut]
  | cons c cs ih =>
      have split : encodeAll (c :: cs) = c.encode ++ encodeAll cs := rfl
      have len : c.encode.length = 4 + c.body.length := by simp [Chunk.encode]
      by_cases whole : 4 + c.body.length ≤ m
      · simp only [cut, if_pos whole]
        rw [split, List.take_append, len, List.take_of_length_le (by omega), ih]
        simp [Chunk.encode]
      · simp only [cut, if_neg whole, encodeAll_nil, List.nil_append]
        rw [split, List.take_append_of_le_length (by omega)]

theorem bodies_cut (cs : List Chunk) (m : Nat) : bodies (cut cs m).1 <+: present cs m := by
  induction cs generalizing m with
  | nil => exact List.nil_prefix
  | cons c cs ih =>
      by_cases whole : 4 + c.body.length ≤ m
      · simp only [cut, if_pos whole, bodies_cons, present]
        rw [List.take_of_length_le (by omega)]
        exact (List.prefix_append_right_inj _).mpr (ih _)
      · simp only [cut, if_neg whole, bodies_nil]
        exact List.nil_prefix

theorem cut_toward {last cs} (toward : Toward last cs) (m : Nat) :
    ∃ last', Toward last' (cut cs m).1 := by
  induction toward generalizing m with
  | done => exact ⟨last, .done⟩
  | @last c kind =>
      by_cases whole : 4 + c.body.length ≤ m
      · exact ⟨last, by simpa only [cut, if_pos whole] using .last kind⟩
      · exact ⟨last, by simpa only [cut, if_neg whole] using .done⟩
  | @data c cs type some rest ih =>
      by_cases whole : 4 + c.body.length ≤ m
      · obtain ⟨last', rest'⟩ := ih (m - (4 + c.body.length))
        simp only [cut, if_pos whole]
        by_cases none : (cut cs (m - (4 + c.body.length))).1 = []
        · exact ⟨.data, by rw [none]; exact .last type⟩
        · exact ⟨last', .data type none rest'⟩
      · exact ⟨last, by simpa only [cut, if_neg whole] using .done⟩

theorem Toward.end_of_mem {last cs} (toward : Toward last cs) {c} (mem : c ∈ cs) (kind : c.type = .end) :
    last = .end := by
  induction toward with
  | done => cases mem
  | last type =>
      cases List.mem_singleton.mp mem
      exact type.symm.trans kind
  | data type some rest ih =>
      rcases List.mem_cons.mp mem with rfl | mem
      · cases type.symm.trans kind
      · exact ih mem

theorem Toward.drain_not_exhausted {last cs} (toward : Toward last cs) (k : Nat) {c} (mem : c ∈ cs)
    (kind : c.type = .err) : (drain k cs).stop ≠ .exhausted := by
  induction toward generalizing k with
  | done => cases mem
  | last type =>
      cases List.mem_singleton.mp mem
      simp [drain, kind]
  | @data d ds type some rest ih =>
      rcases List.mem_cons.mp mem with rfl | mem
      · cases type.symm.trans kind
      · by_cases few : d.body.length < k
        · simpa only [drain, type, if_pos few] using ih _ mem
        · simp [drain, type, few]

/-- What a client can ask of the reader. -/
inductive Request where
  | char
  | block (n : Nat)
  | nextChunk
  deriving Repr, DecidableEq

namespace InBuf

variable (host : Host)

/-- The octets a request hands over, and the buffer after it. -/
def serve (b : InBuf) : Request → List UInt8 × InBuf
  | .char => ((b.sbumpc host).1.toList, (b.sbumpc host).2)
  | .block n => ((b.xsgetn host n).stored.take (b.xsgetn host n).ret.toNat, (b.xsgetn host n).buf)
  | .nextChunk => ([], (b.readNextChunk host).2)

/-- A block read returns the number of octets it has copied, or end of file when
    it has copied none. -/
def Counted (b : InBuf) : Request → Prop
  | .block n => (b.xsgetn host n).ret = (b.xsgetn host n).stored.length ∨
      ((b.xsgetn host n).ret = eof ∧ (b.xsgetn host n).stored = [])
  | .char | .nextChunk => True

/-- All that a run of requests hands over. -/
def handed (b : InBuf) : List Request → List UInt8
  | [] => []
  | r :: rs => (b.serve host r).1 ++ (b.serve host r).2.handed rs

def AllCounted (b : InBuf) : List Request → Prop
  | [] => True
  | r :: rs => b.Counted host r ∧ (b.serve host r).2.AllCounted rs

end InBuf

namespace Feed

/-- The feed after a request. -/
def serve (f : Feed) : Request → Feed
  | .char => (f.getc 0).2
  | .block n => (f.read n).feed
  | .nextChunk => f.next.2

/-- The request does not reach into a body that was cut, an octet is not asked of
    an empty chunk, and a block read that has to stop short of what it asks for
    can still say so. -/
def Sound (f : Feed) : Request → Prop
  | .char => f.area ≠ [] ∨ (f.chunks = [] ∧ f.Short) ∨
      ∃ c cs, f.chunks = c :: cs ∧ (c.type = .data → c.body ≠ [])
  | .block n => n < f.area.length + 2 ^ 32 ∧ min n f.payload.length < 2 ^ 31 ∧
      (n ≤ f.payload.length ∨ (∃ c ∈ f.chunks, c.type = .end) ∨
        (f.payload = [] ∧ ((∃ c ∈ f.chunks, c.type = .err) ∨ f.Short)))
  | .nextChunk => f.chunks = [] → f.Short

def AllSound (f : Feed) : List Request → Prop
  | [] => True
  | r :: rs => f.Sound r ∧ (f.serve r).AllSound rs

/-- `read_next_chunk` finds nothing in the get area that it would lose. -/
def NoneLost (f : Feed) : List Request → Prop
  | [] => True
  | r :: rs => (r = .nextChunk → f.area = []) ∧ (f.serve r).NoneLost rs

/-- All octets of bodies that are still in front of the reader. -/
def remaining (f : Feed) : List UInt8 := f.area ++ bodies f.chunks

theorem chunks_next (f : Feed) : f.next.2.chunks = f.chunks.tail := by
  obtain ⟨area, chunks, tail, report⟩ := f
  cases chunks with
  | nil => rfl
  | cons c cs =>
      simp only [next]
      cases c.type with
      | data => rfl
      | err => rfl
      | «end» => by_cases none : c.body = [] <;> simp [none]

theorem Toward.tail {last cs} (toward : Toward last cs) : Toward last cs.tail := by
  cases toward with
  | done => exact .done
  | last kind => exact .done
  | data type some rest => exact rest

/-- The next chunk takes the place of what was in the get area. -/
theorem remaining_next (f : Feed) (empty : f.area = []) : f.next.2.remaining = f.remaining := by
  obtain ⟨area, chunks, tail, report⟩ := f
  cases empty
  cases chunks with
  | nil => rfl
  | cons c cs =>
      simp only [next]
      cases c.type with
      | data => rfl
      | err => rfl
      | «end» =>
          by_cases none : c.body = []
          · simp [remaining, none]
          · simp [remaining, none]

theorem remaining_next_sublist (f : Feed) : f.next.2.remaining.Sublist f.remaining := by
  obtain ⟨area, chunks, tail, report⟩ := f
  cases chunks with
  | nil => exact List.Sublist.refl _
  | cons c cs =>
      simp only [next, remaining, bodies_cons]
      cases c.type with
      | data => exact List.sublist_append_right _ _
      | err => exact List.sublist_append_right _ _
      | «end» =>
          by_cases none : c.body = []
          · simp [none]
          · simp only [if_neg none]
            exact List.sublist_append_right _ _

/-- What a chunk brings for a request that may be made. -/
theorem next_nonempty {f : Feed} (sound : f.Sound .char) (empty : f.area = [])
    (some : f.next.1.isSome) : f.next.2.area ≠ [] := by
  rcases sound with area | ⟨none, -⟩ | ⟨c, cs, chunks, body⟩
  · cases area empty
  · simp [next, none] at some
  · simp only [next, chunks] at some ⊢
    cases type : c.type with
    | data => exact body type
    | err => simp [type] at some
    | «end» =>
        by_cases none : c.body = []
        · simp [type, none] at some
        · simp [none]

theorem getc_serve (f : Feed) (stale : UInt8) : (f.getc stale).2 = f.serve .char := by
  obtain ⟨area, chunks, tail, report⟩ := f
  cases area with
  | cons x xs => rfl
  | nil =>
      simp only [serve, getc]
      rcases next ⟨[], chunks, tail, report⟩ with ⟨_ | size, after⟩
      · rfl
      · rfl

theorem getc_remaining {f : Feed} (sound : f.Sound .char) (stale : UInt8) :
    (f.getc stale).1.toList ++ (f.serve .char).remaining = f.remaining := by
  rw [← getc_serve f stale]
  cases area : f.area with
  | cons x xs => simp [getc, area, remaining]
  | nil =>
      have same := remaining_next f area
      have some := next_nonempty sound area
      simp only [getc, area]
      rcases found : f.next with ⟨_ | size, after⟩
      · rw [found] at same
        simpa using same
      · rw [found] at same some
        obtain ⟨area', chunks, tail, report⟩ := after
        obtain ⟨y, ys, rfl⟩ := List.exists_cons_of_ne_nil (some rfl)
        exact same

theorem toward_serve {last} {f : Feed} (toward : Toward last f.chunks) (r : Request) :
    Toward last (f.serve r).chunks := by
  cases r with
  | block n => exact read_toward toward n
  | nextChunk =>
      simp only [serve, chunks_next]
      exact Toward.tail toward
  | char =>
      cases area : f.area with
      | cons x xs => simpa only [serve, getc, area] using toward
      | nil =>
          have rest := Toward.tail toward
          rw [← chunks_next] at rest
          simp only [serve, getc, area]
          generalize f.next = found at rest ⊢
          obtain ⟨_ | size, after⟩ := found
          · exact rest
          · exact rest

theorem bodies_eq {last cs} (toward : Toward last cs) :
    bodies cs = Chunked.payload cs ++ (message cs).getD [] := by
  induction toward with
  | done => rfl
  | @last c kind =>
      by_cases err : c.type = .err
      · simp [Chunked.payload, message, err]
      · simp [Chunked.payload, message, err]
  | @data c cs type some rest ih => simp [Chunked.payload, message, type, ih]

theorem drain_message {last cs} (toward : Toward last cs) (k : Nat) :
    message (drain k cs).chunks = message cs ∨ message (drain k cs).chunks = none := by
  induction toward generalizing k with
  | done => exact .inl rfl
  | @last c kind =>
      right
      simp only [drain]
      cases c.type with
      | err => rfl
      | «end» => rfl
      | data => by_cases few : c.body.length < k <;> simp [few, message]
  | @data c cs type some rest ih =>
      simp only [drain, type, message, reduceCtorEq, if_false]
      split
      · exact ih _
      · exact .inl rfl

theorem read_not_exhausted {last} {f : Feed} (toward : Toward last f.chunks) (n : Nat) {c}
    (mem : c ∈ f.chunks) (kind : c.type = .err) : (f.read n).stop ≠ .exhausted := by
  unfold read
  split
  · nofun
  · exact toward.drain_not_exhausted _ mem kind

theorem read_remaining {last} {f : Feed} (toward : Toward last f.chunks) (n : Nat) :
    (f.read n).stored ++ (f.read n).feed.remaining <+: f.remaining := by
  have after := read_toward toward n
  have whole : ∀ {g : Feed}, Toward last g.chunks →
      g.remaining = g.payload ++ (message g.chunks).getD [] := by
    intro g toward
    rw [remaining, bodies_eq toward, payload, List.append_assoc]
  have told : message (f.read n).feed.chunks = message f.chunks ∨
      message (f.read n).feed.chunks = none := by
    unfold read
    split
    · exact .inl rfl
    · exact drain_message toward _
  rw [whole after, whole toward, read_stored toward, read_payload toward, ← List.append_assoc,
    List.take_append_drop]
  rcases told with same | none
  · exact same ▸ List.prefix_refl _
  · rw [none, Option.getD_none, List.append_nil]
    exact List.prefix_append _ _

end Feed

namespace InBuf

variable (host : Host)

/-- The buffer holds a feed of whole chunks and a piece of one. -/
structure Cut (last : ChunkType) (b : InBuf) (f : Feed) : Prop where
  holds : b.Holds f
  inside : b.Inside
  toward : Toward last f.chunks

/-- What a request that may be made does. -/
structure Served (last : ChunkType) (b : InBuf) (f : Feed) (r : Request) : Prop where
  cut : (b.serve host r).2.Cut last (f.serve r)
  counted : b.Counted host r
  order : ((b.serve host r).1 ++ (f.serve r).remaining).Sublist f.remaining
  whole : (r = .nextChunk → f.area = []) → (b.serve host r).1 ++ (f.serve r).remaining <+: f.remaining

namespace Cut

variable {last : ChunkType} {b : InBuf} {f : Feed}

theorem char (cut : b.Cut last f) (sound : f.Sound .char) : Served host last b f .char := by
  have short : f.area = [] → f.chunks = [] → f.Short := by
    intro area chunks
    rcases sound with some | ⟨-, short⟩ | ⟨c, cs, some, -⟩
    · cases some area
    · exact short
    · cases chunks.symm.trans some
  obtain ⟨stale, octet, after⟩ := sbumpc_refines host cut.holds short
  have inside := inside_sbumpc host cut.holds cut.inside short (Feed.next_nonempty sound)
  rw [Feed.getc_serve] at after
  have same := Feed.getc_remaining sound stale
  rw [← octet] at same
  refine ⟨⟨after, inside, Feed.toward_serve cut.toward .char⟩, trivial, ?_, fun _ => ?_⟩
  · exact same ▸ List.Sublist.refl _
  · exact same ▸ List.prefix_refl _

theorem block (cut : b.Cut last f) {n : Nat} (sound : f.Sound (.block n)) :
    Served host last b f (.block n) := by
  obtain ⟨small, fits, reaches⟩ := sound
  have request := Feed.request_eq small
  have counted : n ≤ f.payload.length ∨ (∃ c ∈ f.chunks, c.type = .end) →
      (f.read n).stop = .counted := by
    rintro (few | ⟨c, mem, kind⟩)
    · exact Feed.read_counted cut.toward n small few
    · have last_end := cut.toward.end_of_mem mem kind
      subst last_end
      exact Feed.read_counted_end cut.toward n (List.ne_nil_of_mem mem)
  have stored := Feed.read_stored cut.toward n
  have stops : (f.read n).stop = .counted ∨ (f.read n).stored = [] := by
    rcases reaches with few | closed | ⟨none, -⟩
    · exact .inl (counted (.inl few))
    · exact .inl (counted (.inr closed))
    · right
      rw [stored, none, List.take_nil]
  have whole : f.Whole n := by
    rcases reaches with few | closed | ⟨none, ⟨c, mem, kind⟩ | short⟩
    · exact .inr (.inr (by rw [counted (.inl few)]; nofun))
    · exact .inr (.inr (by rw [counted (.inr closed)]; nofun))
    · exact .inr (.inr (Feed.read_not_exhausted cut.toward n mem kind))
    · exact .inr (.inl short)
  have answers := xsgetn_refines host cut.holds cut.inside whole
  have remaining := Feed.read_remaining cut.toward n
  have count : b.Counted host (.block n) := by
    simp only [Counted]
    rw [answers.ret, answers.stored]
    rcases stops with yes | none
    · left
      rw [if_pos yes, notEof_ofNat]
      rw [stored, request, List.length_take]
      exact fits
    · rw [none]
      by_cases yes : (f.read n).stop = .counted
      · exact .inl (by rw [if_pos yes]; rfl)
      · exact .inr ⟨by rw [if_neg yes], rfl⟩
  have given : (b.serve host (.block n)).1 = (f.read n).stored := by
    simp only [serve]
    rw [answers.stored]
    rcases stops with yes | none
    · rw [answers.ret, if_pos yes, notEof_ofNat, Int.toNat_natCast, List.take_length]
      rw [stored, request, List.length_take]
      exact fits
    · rw [none, List.take_nil]
  refine ⟨⟨answers.buf, answers.inside, Feed.toward_serve cut.toward (.block n)⟩, count, ?_, fun _ => ?_⟩
  · rw [given]
    exact remaining.sublist
  · rw [given]
    exact remaining

theorem nextChunk (cut : b.Cut last f) (sound : f.Sound .nextChunk) :
    Served host last b f .nextChunk := by
  obtain ⟨size, after⟩ := nextChunk_refines host cut.holds sound
  have inside := inside_nextChunk host cut.inside
  have same : (b.readNextChunk host).2 = (b.nextChunk host).2 := by
    simp only [readNextChunk]
    split
    · rename_i found
      rw [found]
    · rename_i found
      rw [found]
  refine ⟨⟨?_, ?_, Feed.toward_serve cut.toward .nextChunk⟩, trivial, ?_, ?_⟩
  · simp only [serve, same]
    exact after
  · simp only [serve, same]
    exact inside
  · exact Feed.remaining_next_sublist f
  · intro empty
    have kept := Feed.remaining_next f (empty rfl)
    exact kept ▸ List.prefix_refl _

theorem serve (cut : b.Cut last f) {r : Request} (sound : f.Sound r) : Served host last b f r := by
  cases r with
  | char => exact cut.char host sound
  | block n => exact cut.block host sound
  | nextChunk => exact cut.nextChunk host sound

/-- What one request preserves, every run of requests preserves. -/
theorem run (cut : b.Cut last f) {rs : List Request} (sound : f.AllSound rs) :
    b.AllCounted host rs ∧ (b.handed host rs).Sublist f.remaining ∧
      (f.NoneLost rs → b.handed host rs <+: f.remaining) := by
  induction rs generalizing b f with
  | nil => exact ⟨trivial, List.nil_sublist _, fun _ => List.nil_prefix⟩
  | cons r rs ih =>
      have served := cut.serve host sound.1
      obtain ⟨counted, order, whole⟩ := ih served.cut sound.2
      refine ⟨⟨served.counted, counted⟩, ?_, ?_⟩
      · exact ((List.Sublist.refl _).append order).trans served.order
      · intro kept
        have more := (List.prefix_append_right_inj (b.serve host r).1).mpr (whole kept.2)
        exact more.trans (served.whole kept.1)

end Cut

end InBuf

/-- Every run of requests on a stream cut off anywhere, none of which reaches into
    the body that was cut: the octets handed over are among those really there and in
    order, the first of them when `read_next_chunk` drops none, and every block read
    counts what it has copied. -/
theorem truncated_in_order (host : Host) {last : ChunkType} {cs : List Chunk}
    (whole : WellFormed last cs) (m : Nat) {size : Int} {b : InBuf}
    (attached : InBuf.create host ((encodeAll cs).take m) size = .ok b) (rs : List Request)
    (sound : Feed.AllSound ⟨[], (cut cs m).1, (cut cs m).2, none⟩ rs) :
    b.AllCounted host rs ∧ (b.handed host rs).Sublist (present cs m) ∧
      (Feed.NoneLost ⟨[], (cut cs m).1, (cut cs m).2, none⟩ rs →
        b.handed host rs <+: present cs m) := by
  obtain ⟨last', toward⟩ := cut_toward whole.toward m
  have holds := InBuf.create_holds host (take_encodeAll cs m) attached
  have cutOff : b.Cut last' ⟨[], (cut cs m).1, (cut cs m).2, none⟩ := ⟨holds.1, holds.2, toward⟩
  obtain ⟨counted, order, first⟩ := cutOff.run host sound
  have there : Feed.remaining ⟨[], (cut cs m).1, (cut cs m).2, none⟩ <+: present cs m := bodies_cut cs m
  exact ⟨counted, order.trans there.sublist, fun kept => (first kept).trans there⟩

/-- A DATA chunk with three octets and an empty END chunk. -/
def threeOctets : List Chunk := [⟨.data, false, [1, 2, 3], by decide⟩, ⟨.end, false, [], by decide⟩]

theorem threeOctets_whole : WellFormed .end threeOctets :=
  ⟨.data rfl (by decide) (.last rfl), by decide, by decide⟩

/-- Cut inside the second header, and read to the end. -/
theorem threeOctets_in_order : ∃ b, InBuf.create littleHost ((encodeAll threeOctets).take 9) 2 = .ok b ∧
    b.handed littleHost [.char, .block 2, .nextChunk] <+: [1, 2, 3] := by
  refine ⟨_, rfl, ?_⟩
  have sound : Feed.AllSound ⟨[], (cut threeOctets 9).1, (cut threeOctets 9).2, none⟩
      [.char, .block 2, .nextChunk] := by
    refine ⟨.inr (.inr ⟨_, _, rfl, by decide⟩), ⟨by decide, by decide, .inl (by decide)⟩, ?_, trivial⟩
    intro _
    exact (by decide : 2 < 4)
  exact (@truncated_in_order littleHost _ _ threeOctets_whole 9 2 _ rfl _ sound).2.2
    ⟨nofun, nofun, fun _ => rfl, trivial⟩

/-- Cut after the first octet of the body: a block read of three counts three, and
    the second octet read is one that is not there. -/
theorem cutBody_fabricates : WellFormed .end threeOctets ∧ present threeOctets 5 = [1] ∧
    ∃ b, InBuf.create littleHost ((encodeAll threeOctets).take 5) 4 = .ok b ∧
      ¬ b.Counted littleHost (.block 3) ∧ b.handed littleHost [.char, .char] = [1, 0] := by
  refine ⟨threeOctets_whole, by decide, _, rfl, ?_, by decide +kernel⟩
  simp only [InBuf.Counted]
  decide +kernel

end Libdap.Chunked
