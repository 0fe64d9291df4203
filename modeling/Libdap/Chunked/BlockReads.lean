import Libdap.Chunked.Payload

/-! # Block reads of a whole stream

A block read of `n` octets with `left` still to come answers as it should unless
it reaches one of three limits: it asks for more than is left when the END chunk
is no longer there to say so, its count does not fit an `int`, or what it asks
of the chunks has wrapped. `Meets` rules these out, and it rules out nothing
else.
-/

namespace Libdap.Chunked

open Ints

/-- No DATA chunk is empty. -/
def NoEmpty (cs : List Chunk) : Prop := ∀ c ∈ cs, c.type = .data → c.body ≠ []

theorem NoEmpty.drain {cs} (filled : NoEmpty cs) (k : Nat) : NoEmpty (drain k cs).chunks := by
  induction cs generalizing k with
  | nil => exact filled
  | cons c cs ih =>
      have rest : NoEmpty cs := by
        intro d mem
        exact filled d (List.mem_cons_of_mem c mem)
      simp only [Chunked.drain]
      split
      · exact rest
      · exact rest
      split
      · exact ih rest _
      · exact rest

theorem NoEmpty.read {f : Feed} (filled : NoEmpty f.chunks) (n : Nat) :
    NoEmpty (f.read n).feed.chunks := by
  unfold Feed.read
  split
  · exact filled
  · exact filled.drain _

/-- With no empty DATA chunks and nothing to give, only the last chunk is left. -/
theorem Toward.only_last {last cs} (toward : Toward last cs) (filled : NoEmpty cs)
    (nothing : payload cs = []) :
    cs = [] ∨ ∃ c, cs = [c] ∧ c.type = last := by
  cases toward with
  | done => exact .inl rfl
  | @last c kind => exact .inr ⟨c, rfl, kind⟩
  | @data c cs type some rest =>
      have body := filled c (List.mem_cons_self ..) type
      simp only [payload, type, reduceCtorEq, if_false, List.append_eq_nil_iff] at nothing
      cases body nothing.1

namespace InBuf

/-- `b` holds `f`, in which the chunks lead to one of the type `last`. -/
structure Ready (last : ChunkType) (b : InBuf) (f : Feed) : Prop where
  holds : b.Holds f
  inside : b.Inside
  toward : Toward last f.chunks
  tail : f.tail = []

/-- What a block read is asked to meet when `left` octets are still to come. -/
structure Meets (last : ChunkType) (b : InBuf) (left n : Nat) : Prop where
  closed : n ≤ left ∨ left = 0 ∨ (last = .end ∧ b.is.rest ≠ [])
  counts : min n left < 2 ^ 31
  reduced : min n left - (b.egptr - b.gptr) ≤ (n - (b.egptr - b.gptr)) % 2 ^ 32

instance (last : ChunkType) (b : InBuf) (left n : Nat) : Decidable (b.Meets last left n) :=
  decidable_of_iff
    ((n ≤ left ∨ left = 0 ∨ (last = .end ∧ b.is.rest ≠ [])) ∧ min n left < 2 ^ 31 ∧
      min n left - (b.egptr - b.gptr) ≤ (n - (b.egptr - b.gptr)) % 2 ^ 32)
    ⟨fun meets => ⟨meets.1, meets.2.1, meets.2.2⟩,
      fun meets => ⟨meets.closed, meets.counts, meets.reduced⟩⟩

variable (host : Host)

/-- Every block read of the run meets that. -/
def AllMeet (last : ChunkType) (b : InBuf) (left : Nat) : List Nat → Prop
  | [] => True
  | n :: ns => b.Meets last left n ∧ (b.xsgetn host n).buf.AllMeet last (left - n) ns

instance decidableAllMeet (last : ChunkType) : ∀ (ns : List Nat) (b : InBuf) (left : Nat),
    Decidable (b.AllMeet host last left ns)
  | [], _, _ => inferInstanceAs (Decidable True)
  | n :: ns, b, left =>
    have := decidableAllMeet last ns (b.xsgetn host n).buf (left - n)
    inferInstanceAs (Decidable (_ ∧ _))

theorem meets_nothing (last : ChunkType) (b : InBuf) (n : Nat) : b.Meets last 0 n :=
  ⟨.inr (.inl rfl), by simp, by simp⟩

theorem allMeet_nothing (last : ChunkType) (b : InBuf) (ns : List Nat) :
    b.AllMeet host last 0 ns := by
  induction ns generalizing b with
  | nil => trivial
  | cons n ns ih =>
      refine ⟨meets_nothing last b n, ?_⟩
      rw [Nat.zero_sub]
      exact ih _

theorem create_holds {cs tail input} (stream : input = encodeAll cs ++ tail) {size : Int} {b : InBuf}
    (made : create host input size = .ok b) : b.Holds ⟨[], cs, tail, none⟩ ∧ b.Inside := by
  simp only [create] at made
  split at made
  · cases made
  · cases made
    refine ⟨⟨?_, nofun, ?_, Nat.zero_le _, ?_, rfl⟩, Nat.le_refl 0⟩
    · simp [bufferAlloc, InStream.open_, stream]
    · simp [bufferAlloc]
    · simp [bufferAlloc]

theorem create_ready {last : ChunkType} {cs} (toward : Toward last cs) {size : Int} {b : InBuf}
    (made : create host (encodeAll cs) size = .ok b) : b.Ready last ⟨[], cs, [], none⟩ := by
  have holds := create_holds host (List.append_nil _).symm made
  exact ⟨holds.1, holds.2, toward, rfl⟩

namespace Ready

variable {last : ChunkType} {b : InBuf} {f : Feed} (ready : b.Ready last f)

include ready

theorem answers (n : Nat) : Answers (f.read n) (b.xsgetn host n) := by
  apply xsgetn_refines host ready.holds ready.inside
  right
  left
  simp [Feed.Short, ready.tail]

theorem xsgetn (n : Nat) : (b.xsgetn host n).buf.Ready last (f.read n).feed :=
  ⟨(ready.answers host n).buf, (ready.answers host n).inside,
    Feed.read_toward ready.toward n, Feed.read_tail n ready.tail⟩

theorem area : b.egptr - b.gptr = f.area.length := ready.holds.length_area.symm

theorem rest_ne : b.is.rest ≠ [] ↔ f.chunks ≠ [] := by
  rw [ready.holds.stream, ready.tail, List.append_nil]
  cases f.chunks with
  | nil => simp
  | cons c cs =>
      have header := length_headerOctets c.type c.bigEndian c.body.length
      simp only [encodeAll_cons, ne_eq, List.append_eq_nil_iff, reduceCtorEq, not_false_eq_true,
        iff_true, not_and]
      intro none
      simp [none] at header

theorem reduced_iff {n : Nat} :
    min n f.payload.length - (b.egptr - b.gptr) ≤ (n - (b.egptr - b.gptr)) % 2 ^ 32 ↔
      min n f.payload.length ≤ f.request n := by
  rw [ready.area, Feed.request]
  split <;> omega

/-- A read that meets the conditions copies what comes next and counts it. -/
theorem meets_read {n : Nat} (meets : b.Meets last f.payload.length n) :
    (b.xsgetn host n).stored = f.payload.take n ∧
      (f.payload ≠ [] ∨ n = 0 →
        (f.read n).stop = .counted ∧ (b.xsgetn host n).ret = min n f.payload.length) := by
  have answers := ready.answers host n
  have enough := ready.reduced_iff.mp meets.reduced
  have small := meets.counts
  have bound := f.request_le n
  have stored : (f.read n).stored = f.payload.take n := by
    rw [Feed.read_stored ready.toward, List.take_eq_take_iff]
    omega
  refine ⟨answers.stored.trans stored, ?_⟩
  intro asked
  have counted : (f.read n).stop = .counted := by
    have short : n ≤ f.payload.length → (f.read n).stop = .counted := by
      intro few
      exact Feed.read_counted ready.toward n (by omega) few
    rcases meets.closed with few | none | ⟨rfl, some⟩
    · exact short few
    · rcases asked with some | rfl
      · cases some (List.length_eq_zero_iff.mp none)
      · exact short (Nat.zero_le _)
    · exact Feed.read_counted_end ready.toward n (ready.rest_ne.mp some)
  refine ⟨counted, ?_⟩
  rw [answers.ret, if_pos counted, stored, List.length_take, notEof_ofNat small]

/-- The conditions are met by every read that answers so, when only an END chunk
    can make a read count less than it was asked for. -/
theorem meets_of_read {n : Nat} (short : f.payload.length < n → f.payload ≠ [] → last = .end)
    (stored : (b.xsgetn host n).stored = f.payload.take n)
    (ret : f.payload ≠ [] → (b.xsgetn host n).ret = min n f.payload.length) :
    b.Meets last f.payload.length n := by
  by_cases none : f.payload = []
  · rw [none]
    exact meets_nothing last b n
  have answers := ready.answers host n
  have counts := ret none
  rw [answers.ret] at counts
  by_cases counted : (f.read n).stop = .counted
  · rw [if_pos counted, ← answers.stored, stored, List.length_take] at counts
    refine ⟨?_, ?_, ?_⟩
    · by_cases few : n ≤ f.payload.length
      · exact .inl few
      · right
        right
        refine ⟨short (by omega) none, ?_⟩
        apply ready.rest_ne.mpr
        intro exhausted
        have area : f.payload.length = f.area.length := by simp [Feed.payload, exhausted, payload]
        rw [Feed.read_exhausted exhausted (by omega)] at counted
        cases counted
    · have fits := notEof_lt (min n f.payload.length : Nat)
      omega
    · apply ready.reduced_iff.mpr
      have taken := congrArg List.length (answers.stored.symm.trans stored)
      rw [Feed.read_stored ready.toward, List.length_take, List.length_take] at taken
      omega
  · rw [if_neg counted, eof] at counts
    omega

end Ready

end InBuf

end Libdap.Chunked
