import Libdap.Chunked.BlockReads

/-! # Slow and fast reads of a chunked stream

A client can read a stream one octet at a time until it is told of the end, or
block by block until a read comes up short. On a whole stream the two agree on
the octets and on the error message exactly when no DATA chunk is empty and the
block reads meet their conditions: the slow reader answers an empty chunk with
an octet that was never sent.
-/

namespace Libdap.Chunked

open Ints

namespace InBuf

variable (host : Host)

theorem shrinks_of_nextChunk {b b' : InBuf} {size : Nat}
    (next : b.nextChunk host = (some size, b')) : b'.is.rest.length < b.is.rest.length := by
  simp only [nextChunk] at next
  split at next
  · cases next
  · rename_i header b₁ taken
    have shorter := length_rest_of_readHeader host taken
    have filled : ∀ n m : Nat, (((b₁.reserve host n n).fill m).setg m).is.rest.length <
        b.is.rest.length := by
      intro n m
      have read := InStream.length_read_le b₁.is m
      simp only [setg, fill, is_reserve]
      omega
    split at next
    · cases next
    split at next
    · cases next
      exact filled _ _
    split at next
    · cases next
      exact filled _ _
    split at next
    · cases next
    · cases next

theorem shrinks_of_sbumpc {b b' : InBuf} {c : UInt8} (taken : b.sbumpc host = (some c, b')) :
    b'.is.rest.length < b.is.rest.length ∨
      (b'.is.rest.length = b.is.rest.length ∧ b'.egptr - b'.gptr < b.egptr - b.gptr) := by
  simp only [sbumpc, underflow] at taken
  by_cases more : b.gptr < b.egptr
  · simp only [if_pos more, Prod.mk.injEq] at taken
    obtain ⟨-, rfl⟩ := taken
    exact .inr ⟨rfl, Nat.sub_lt_sub_left more (Nat.lt_succ_self _)⟩
  · simp only [if_neg more] at taken
    rcases next : b.nextChunk host with ⟨size, b₁⟩
    simp only [next] at taken
    cases size with
    | none => cases taken
    | some size =>
        cases taken
        have shorter := shrinks_of_nextChunk host next
        exact .inl shorter

/-- Read octet after octet until the end of file. -/
def chars (b : InBuf) : List UInt8 × InBuf :=
  match _taken : b.sbumpc host with
  | (none, b') => ([], b')
  | (some c, b') => (c :: b'.chars.1, b'.chars.2)
termination_by (b.is.rest.length, b.egptr - b.gptr)
decreasing_by
  all_goals
    rw [Prod.lex_iff]
    exact shrinks_of_sbumpc host _taken

theorem chars_none {b b' : InBuf} (taken : b.sbumpc host = (none, b')) :
    b.chars host = ([], b') := by
  unfold chars
  split
  · rename_i found
    cases taken.symm.trans found
    rfl
  · rename_i found
    cases taken.symm.trans found

theorem chars_some {b b' : InBuf} {c : UInt8} (taken : b.sbumpc host = (some c, b')) :
    b.chars host = (c :: (b'.chars host).1, (b'.chars host).2) := by
  rw [chars]
  split
  · rename_i found
    cases taken.symm.trans found
  · rename_i found
    cases taken.symm.trans found
    rfl

/-- Read block after block until one comes up short. What is returned is the
    octets that were counted and the buffer after the short read, `none` when the
    requests run out before it. -/
def blocks (b : InBuf) : List Nat → List UInt8 × Option InBuf
  | [] => ([], none)
  | n :: ns =>
    let r := b.xsgetn host n
    let given := r.stored.take r.ret.toNat
    if r.ret = n then (given ++ (r.buf.blocks ns).1, (r.buf.blocks ns).2) else (given, some r.buf)

end InBuf

/-- The number of DATA chunks without a body. -/
def empties (cs : List Chunk) : Nat := cs.countP fun c => c.type = .data ∧ c.body = []

theorem empties_eq_zero {cs : List Chunk} : empties cs = 0 ↔ NoEmpty cs := by
  simp [empties, NoEmpty]

namespace Feed

theorem getc_none {last stale} {f f' : Feed} (toward : Toward last f.chunks)
    (read : f.getc stale = (none, f')) :
    f.payload = [] ∧ empties f.chunks = 0 ∧ f'.report = f.verdict := by
  obtain ⟨area, chunks, tail, report⟩ := f
  cases area with
  | cons x xs => simp [getc] at read
  | nil =>
      cases toward with
      | done =>
          simp only [getc, next, Prod.mk.injEq, true_and] at read
          subst read
          simp [payload, Chunked.payload, empties, verdict, message]
      | @last c kind =>
          simp only [getc, next] at read
          cases type : c.type with
          | data => simp [type] at read
          | err =>
              simp only [type, Prod.mk.injEq, true_and] at read
              subst read
              simp [payload, Chunked.payload, empties, verdict, message, type]
          | «end» =>
              by_cases body : c.body = []
              · simp only [type, if_pos body, Prod.mk.injEq, true_and] at read
                subst read
                simp [payload, Chunked.payload, empties, verdict, message, type, body]
              · simp [type, body] at read
      | @data c cs type some rest => simp [getc, next, type] at read

/-- An octet comes off the payload, or it stands for an empty chunk. -/
theorem getc_some {last stale c} {f f' : Feed} (toward : Toward last f.chunks)
    (read : f.getc stale = (some c, f')) :
    Toward last f'.chunks ∧ f'.tail = f.tail ∧ f'.verdict = f.verdict ∧
      ((f.payload = c :: f'.payload ∧ empties f.chunks = empties f'.chunks) ∨
        (f.payload = f'.payload ∧ empties f.chunks = empties f'.chunks + 1)) := by
  obtain ⟨area, chunks, tail, report⟩ := f
  cases area with
  | cons x xs =>
      cases read
      exact ⟨toward, rfl, rfl, .inl ⟨rfl, rfl⟩⟩
  | nil =>
      cases toward with
      | done => simp [getc, next] at read
      | @last d kind =>
          cases type : d.type with
          | data =>
              simp only [getc, next, type, Prod.mk.injEq, Option.some.injEq] at read
              obtain ⟨rfl, rfl⟩ := read
              refine ⟨.done, rfl, by simp [verdict, message, type], ?_⟩
              cases body : d.body with
              | nil => simp [payload, Chunked.payload, empties, type, body]
              | cons x xs => simp [payload, Chunked.payload, empties, type, body]
          | err => simp [getc, next, type] at read
          | «end» =>
              cases body : d.body with
              | nil => simp [getc, next, type, body] at read
              | cons x xs =>
                  simp only [getc, next, type, body, reduceCtorEq, if_false, Prod.mk.injEq,
                    Option.some.injEq] at read
                  obtain ⟨rfl, rfl⟩ := read
                  refine ⟨.done, rfl, by simp [verdict, message, type], ?_⟩
                  simp [payload, Chunked.payload, empties, type, body]
      | @data d cs type some rest =>
          simp only [getc, next, type, Prod.mk.injEq, Option.some.injEq] at read
          obtain ⟨rfl, rfl⟩ := read
          refine ⟨rest, rfl, by simp [verdict, message, type], ?_⟩
          cases body : d.body with
          | nil => simp [payload, Chunked.payload, empties, type, body]
          | cons x xs => simp [payload, Chunked.payload, empties, type, body]

end Feed

namespace InBuf

variable (host : Host)

/-- What the slow reader makes of a stream. -/
structure Slow (f : Feed) (read : List UInt8 × InBuf) : Prop where
  length : read.1.length = f.payload.length + empties f.chunks
  octets : empties f.chunks = 0 → read.1 = f.payload
  report : read.2.report = f.verdict

theorem chars_slow {last} {b : InBuf} {f : Feed} (holds : b.Holds f) (toward : Toward last f.chunks)
    (tail : f.tail = []) : Slow f (b.chars host) := by
  have short : f.area = [] → f.chunks = [] → f.Short := by
    intro _ _
    simp [Feed.Short, tail]
  obtain ⟨stale, octet, after⟩ := sbumpc_refines host holds short
  induction b using chars.induct host generalizing f stale with
  | case1 b b' taken =>
      rw [taken] at octet after
      rcases read : f.getc stale with ⟨c, f'⟩
      rw [read] at octet after
      cases octet
      obtain ⟨payload, none, report⟩ := Feed.getc_none toward read
      rw [chars_none host taken]
      refine ⟨by simp [payload, none], fun _ => payload.symm, after.report.trans report⟩
  | case2 b c b' taken ih =>
      rw [taken] at octet after
      rcases read : f.getc stale with ⟨c', f'⟩
      rw [read] at octet after
      cases octet
      obtain ⟨toward', tail', verdict, gives⟩ := Feed.getc_some toward read
      have short' : f'.area = [] → f'.chunks = [] → f'.Short := by
        intro _ _
        simp [Feed.Short, tail', tail]
      obtain ⟨stale', octet', after'⟩ := sbumpc_refines host after short'
      have rest := ih after toward' (tail'.trans tail) short' stale' octet' after'
      rw [chars_some host taken]
      refine ⟨?_, ?_, rest.report.trans verdict⟩
      · simp only [List.length_cons, rest.length]
        rcases gives with ⟨payload, same⟩ | ⟨payload, more⟩
        · rw [payload, same, List.length_cons]
          omega
        · rw [payload, more]
          omega
      · intro none
        rcases gives with ⟨payload, same⟩ | ⟨payload, more⟩
        · rw [payload, rest.octets (same.symm.trans none)]
        · omega

namespace Ready

variable {last : ChunkType} {b : InBuf} {f : Feed}

/-- A read that returns what it was asked for has copied that much. -/
theorem full_read (ready : b.Ready last f) {n : Nat} (full : (b.xsgetn host n).ret = n) :
    (f.read n).stop = .counted ∧ f.request n = n ∧ n ≤ f.payload.length ∧ n < 2 ^ 31 := by
  have answers := ready.answers host n
  rw [answers.ret] at full
  by_cases counted : (f.read n).stop = .counted
  · have bound := f.request_le n
    have len := congrArg List.length (Feed.read_stored ready.toward n)
    have fits := notEof_lt (f.read n).stored.length
    rw [if_pos counted] at full
    rw [List.length_take] at len
    rw [full] at fits
    rw [notEof_ofNat (by omega)] at full
    refine ⟨counted, ?_, ?_, ?_⟩
    all_goals omega
  · rw [if_neg counted, eof] at full
    omega

theorem full_meets (ready : b.Ready last f) {n : Nat} (full : (b.xsgetn host n).ret = n) :
    b.Meets last f.payload.length n := by
  obtain ⟨-, request, few, small⟩ := ready.full_read host full
  refine ⟨.inl few, by omega, ready.reduced_iff.mpr ?_⟩
  rw [request]
  exact Nat.min_le_left _ _

/-- A short read that meets the conditions copies the rest of the payload. -/
theorem short_meets (ready : b.Ready last f) {n : Nat} (short : (b.xsgetn host n).ret ≠ n)
    (meets : b.Meets last f.payload.length n) :
    f.payload.length < n ∧
      (b.xsgetn host n).stored.take (b.xsgetn host n).ret.toNat = f.payload := by
  obtain ⟨stored, counts⟩ := ready.meets_read host meets
  have many : f.payload.length < n := by
    apply Nat.lt_of_not_le
    intro few
    have asked : f.payload ≠ [] ∨ n = 0 := by
      by_cases none : f.payload = []
      · right
        simpa [none] using few
      · exact .inl none
    rw [(counts asked).2, Nat.min_eq_left few] at short
    exact short rfl
  refine ⟨many, ?_⟩
  rw [stored, List.take_of_length_le many.le]
  by_cases none : f.payload = []
  · simp [none]
  · rw [(counts (.inl none)).2, Nat.min_eq_right many.le, Int.toNat_natCast, List.take_length]

/-- Only a short read that meets the conditions copies it and leaves the error
    message as it will stay. -/
theorem meets_of_short (ready : b.Ready last f) (ends : last ≠ .data)
    (unread : last = .err → f.verdict ≠ f.report) {n : Nat}
    (all : ((b.xsgetn host n).stored.take (b.xsgetn host n).ret.toNat).length = f.payload.length)
    (told : (b.xsgetn host n).buf.report = f.verdict) :
    b.Meets last f.payload.length n ∧ f.payload.length ≤ n := by
  by_cases none : f.payload = []
  · rw [none]
    exact ⟨meets_nothing last b n, Nat.zero_le n⟩
  have answers := ready.answers host n
  have some := List.length_pos_of_ne_nil none
  have taken := congrArg List.length (Feed.read_stored ready.toward n)
  have bound := f.request_le n
  rw [List.length_take, answers.stored, answers.ret] at all
  rw [List.length_take] at taken
  by_cases counted : (f.read n).stop = .counted
  · rw [if_pos counted] at all
    have fits := notEof_lt (f.read n).stored.length
    have small : (f.read n).stored.length < 2 ^ 31 := by omega
    rw [notEof_ofNat small] at all
    have reaches : f.payload.length ≤ f.request n := by omega
    refine ⟨ready.meets_of_read host ?_ ?_ ?_, by omega⟩
    · intro _ _
      cases last with
      | data => cases ends rfl
      | «end» => rfl
      | err =>
          rw [answers.buf.report, Feed.read_report counted] at told
          cases unread rfl told.symm
    · rw [answers.stored, Feed.read_stored ready.toward, List.take_of_length_le reaches,
        List.take_of_length_le (by omega)]
    · intro _
      rw [answers.ret, if_pos counted, notEof_ofNat small]
      omega
  · rw [if_neg counted, eof] at all
    omega

/-- At the end of the payload a read meets the error chunk. -/
theorem report_at_end (ready : b.Ready last f) (ends : last ≠ .data) (filled : NoEmpty f.chunks)
    {n : Nat} (many : f.payload.length < n) (nothing : last = .err → f.payload = []) :
    (b.xsgetn host n).buf.report = f.verdict := by
  have verdict := Feed.read_verdict ready.toward n
  rw [(ready.answers host n).buf.report, ← verdict]
  cases last with
  | data => cases ends rfl
  | «end» =>
      rw [Feed.verdict, (Feed.read_toward ready.toward n).message_end]
      rfl
  | err =>
      obtain ⟨area, chunks⟩ := List.append_eq_nil_iff.mp (nothing rfl)
      have past : ¬ n ≤ f.area.length := by simp [area]; omega
      have gone : (f.read n).feed.chunks = [] := by
        rcases ready.toward.only_last filled chunks with none | ⟨c, only, kind⟩
        · simp [Feed.read, past, none, drain, Drained.feed]
        · simp [Feed.read, past, only, drain, kind, Drained.feed]
      rw [Feed.verdict, gone]
      rfl

end Ready

/-- What the fast reader makes of a stream. -/
structure Fast (last : ChunkType) (b : InBuf) (f : Feed) (ns : List Nat) (read : List UInt8)
    (after : InBuf) : Prop where
  length : read.length ≤ f.payload.length
  octets : b.AllMeet host last f.payload.length ns → read = f.payload
  report : b.AllMeet host last f.payload.length ns → NoEmpty f.chunks → after.report = f.verdict
  meets : read.length = f.payload.length → after.report = f.verdict →
    b.AllMeet host last f.payload.length ns

theorem blocks_fast {last : ChunkType} {b : InBuf} {f : Feed} (ready : b.Ready last f)
    (ends : last ≠ .data) (unread : last = .err → f.verdict ≠ f.report) {ns : List Nat} {after : InBuf}
    (finishes : (b.blocks host ns).2 = some after) :
    Fast host last b f ns (b.blocks host ns).1 after := by
  induction ns generalizing b f with
  | nil => cases finishes
  | cons n ns ih =>
      by_cases full : (b.xsgetn host n).ret = n
      · obtain ⟨counted, request, few, -⟩ := ready.full_read host full
        have answers := ready.answers host n
        have meets := ready.full_meets host full
        have given : (b.xsgetn host n).stored.take (b.xsgetn host n).ret.toNat = f.payload.take n := by
          rw [answers.stored, Feed.read_stored ready.toward, request, full, Int.toNat_natCast,
            List.take_take, Nat.min_self]
        have left : (f.read n).feed.payload = f.payload.drop n := by
          rw [Feed.read_payload ready.toward, request]
        have verdict := Feed.read_verdict ready.toward n
        have report := Feed.read_report counted
        simp only [blocks, if_pos full] at finishes
        have rest := ih (ready.xsgetn host n) (by rwa [verdict, report]) finishes
        simp only [blocks, if_pos full, given]
        have whole := List.take_append_drop n f.payload
        refine ⟨?_, ?_, ?_, ?_⟩
        · have length := rest.length
          rw [left, List.length_drop] at length
          rw [List.length_append, List.length_take]
          omega
        · intro meet
          have octets := rest.octets
          rw [left, List.length_drop] at octets
          rw [octets meet.2, whole]
        · intro meet filled
          have told := rest.report
          rw [left, List.length_drop] at told
          exact (told meet.2 (filled.read n)).trans verdict
        · intro length told
          have meet := rest.meets
          rw [left, List.length_drop, verdict] at meet
          rw [List.length_append, List.length_take] at length
          exact ⟨meets, meet (by omega) told⟩
      · simp only [blocks, if_neg full, Option.some.injEq] at finishes
        subst finishes
        simp only [blocks, if_neg full]
        refine ⟨?_, ?_, ?_, ?_⟩
        · have taken := congrArg List.length (Feed.read_stored ready.toward n)
          rw [List.length_take, (ready.answers host n).stored]
          rw [List.length_take] at taken
          omega
        · intro meet
          exact (ready.short_meets host full meet.1).2
        · intro meet filled
          have many := (ready.short_meets host full meet.1).1
          apply ready.report_at_end host ends filled many
          intro err
          subst err
          rcases meet.1.closed with few | none | ⟨none, -⟩
          · omega
          · exact List.length_eq_zero_iff.mp none
          · cases none
        · intro length told
          obtain ⟨meets, past⟩ := ready.meets_of_short host ends unread length told
          refine ⟨meets, ?_⟩
          rw [Nat.sub_eq_zero_of_le past]
          exact allMeet_nothing host last _ ns

/-- Requests for at least one octet each come to the end of the payload. -/
theorem blocks_finish {last : ChunkType} {b : InBuf} {f : Feed} (ready : b.Ready last f)
    {ns : List Nat} (pos : ∀ n ∈ ns, 0 < n) (enough : f.payload.length < ns.length) :
    ((b.blocks host ns).2).isSome := by
  induction ns generalizing b f with
  | nil => simp at enough
  | cons n ns ih =>
      by_cases full : (b.xsgetn host n).ret = n
      · obtain ⟨-, request, few, -⟩ := ready.full_read host full
        have some := pos n (List.mem_cons_self ..)
        simp only [blocks, if_pos full]
        apply ih (ready.xsgetn host n) (fun m mem => pos m (List.mem_cons_of_mem n mem))
        rw [Feed.read_payload ready.toward, request, List.length_drop]
        rw [List.length_cons] at enough
        omega
      · simp [blocks, full]

/-- Requests that run out have given a prefix of the payload. -/
theorem blocks_behind {last : ChunkType} {b : InBuf} {f : Feed} (ready : b.Ready last f)
    {ns : List Nat} (unfinished : (b.blocks host ns).2 = none) :
    (b.blocks host ns).1 <+: f.payload := by
  induction ns generalizing b f with
  | nil => exact List.nil_prefix
  | cons n ns ih =>
      by_cases full : (b.xsgetn host n).ret = n
      · obtain ⟨-, request, -, -⟩ := ready.full_read host full
        simp only [blocks, if_pos full] at unfinished ⊢
        have rest := ih (ready.xsgetn host n) unfinished
        rw [Feed.read_payload ready.toward, request] at rest
        rw [(ready.answers host n).stored, Feed.read_stored ready.toward, request, full,
          Int.toNat_natCast, List.take_take, Nat.min_self]
        obtain ⟨more, whole⟩ := rest
        exact ⟨more, by rw [List.append_assoc, whole, List.take_append_drop]⟩
      · simp [blocks, full] at unfinished

end InBuf

/-- Requests for something come to the end of every whole stream; a run of them
    that has come to the end agrees with the slow reader exactly when no DATA chunk
    is empty and its reads meet their conditions, and one that has not is behind it. -/
theorem fast_slow_agree (host : Host) {last : ChunkType} {cs : List Chunk}
    (whole : WellFormed last cs) {size : Int} {b : InBuf}
    (attached : InBuf.create host (encodeAll cs) size = .ok b) (ns : List Nat) :
    ((∀ n ∈ ns, 0 < n) → (payload cs).length < ns.length → ((b.blocks host ns).2).isSome) ∧
    (∀ after, (b.blocks host ns).2 = some after →
      (((b.blocks host ns).1 = (b.chars host).1 ∧ after.report = (b.chars host).2.report) ↔
        (NoEmpty cs ∧ b.AllMeet host last (payload cs).length ns))) ∧
    ((b.blocks host ns).2 = none → NoEmpty cs → (b.blocks host ns).1 <+: (b.chars host).1) := by
  have ready := InBuf.create_ready host whole.toward attached
  have slow := InBuf.chars_slow host ready.holds ready.toward ready.tail
  have same : Feed.payload ⟨[], cs, [], none⟩ = payload cs := rfl
  have unread : last = .err → Feed.verdict ⟨[], cs, [], none⟩ ≠ none := by
    intro err
    subst err
    have told := whole.toward.message_err whole.some
    simpa [Feed.verdict] using Option.isSome_iff_ne_none.mp told
  refine ⟨fun pos enough => InBuf.blocks_finish host ready pos enough, ?_, ?_⟩
  · intro after finishes
    have fast := InBuf.blocks_fast host ready whole.ends unread finishes
    constructor
    · rintro ⟨octets, report⟩
      have length := congrArg List.length octets
      rw [slow.length] at length
      have bound := fast.length
      have filled : empties cs = 0 := by
        simp only at length
        omega
      refine ⟨empties_eq_zero.mp filled, fast.meets ?_ (report.trans slow.report)⟩
      simp only [filled] at length
      exact length
    · rintro ⟨filled, meet⟩
      rw [fast.octets meet, fast.report meet filled, slow.report,
        slow.octets (empties_eq_zero.mpr filled)]
      exact ⟨rfl, rfl⟩
  · intro unfinished filled
    rw [slow.octets (empties_eq_zero.mpr filled)]
    exact InBuf.blocks_behind host ready unfinished

/-- Two DATA chunks and an END chunk, each with a body. -/
def threeChunks : List Chunk :=
  [⟨.data, false, [1, 2], by decide⟩, ⟨.data, true, [3], by decide⟩, ⟨.end, false, [4, 5], by decide⟩]

theorem threeChunks_agree : ∃ b after, InBuf.create littleHost (encodeAll threeChunks) 2 = .ok b ∧
    (b.blocks littleHost [2, 1, 3]).2 = some after ∧
    (b.blocks littleHost [2, 1, 3]).1 = (b.chars littleHost).1 ∧
    after.report = (b.chars littleHost).2.report := by
  have whole : WellFormed .end threeChunks :=
    ⟨.data rfl (by decide) (.data rfl (by decide) (.last rfl)), by decide, by decide⟩
  refine ⟨_, ⟨⟨[], false⟩, 2, [0, 0], 0, 0, false, true, false, []⟩, rfl, by decide +kernel, ?_⟩
  exact ((@fast_slow_agree littleHost _ _ whole 2 _ rfl [2, 1, 3]).2.1 _ (by decide +kernel)).mpr
    ⟨by unfold NoEmpty; decide, by decide +kernel⟩

/-- An empty DATA chunk before the END chunk: the slow reader is given an octet
    that nobody sent. -/
theorem emptyChunk_fabricates : ∃ b after, WellFormed .end
      [⟨.data, false, [], Nat.zero_le _⟩, ⟨.end, false, [], Nat.zero_le _⟩] ∧
    InBuf.create littleHost [4, 0, 0, 0, 5, 0, 0, 0] 4 = .ok b ∧
    encodeAll [⟨.data, false, [], Nat.zero_le _⟩, ⟨.end, false, [], Nat.zero_le _⟩] =
      [4, 0, 0, 0, 5, 0, 0, 0] ∧
    b.blocks littleHost [1] = ([], some after) ∧ (b.chars littleHost).1 = [0] := by
  refine ⟨_, ⟨⟨[], false⟩, 4, [0, 0, 0, 0], 0, 0, false, true, false, []⟩,
    ⟨.data rfl (by simp) (.last rfl), by simp, by decide⟩, rfl, by decide, by decide +kernel, ?_⟩
  have first : (InBuf.bufferAlloc littleHost ⟨.open_ [4, 0, 0, 0, 5, 0, 0, 0], 4, [], 0, 0, false, false,
      false, []⟩).sbumpc littleHost = (some 0, ⟨⟨[5, 0, 0, 0], false⟩, 4, [0, 0, 0, 0], 1, 0, false, true,
      false, []⟩) := by decide +kernel
  have second : InBuf.sbumpc littleHost ⟨⟨[5, 0, 0, 0], false⟩, 4, [0, 0, 0, 0], 1, 0, false, true,
      false, []⟩ = (none, ⟨⟨[], false⟩, 4, [0, 0, 0, 0], 1, 0, false, true, false, []⟩) := by
    decide +kernel
  exact congrArg Prod.fst ((InBuf.chars_some littleHost first).trans
    (by rw [InBuf.chars_none littleHost second]))

end Libdap.Chunked
