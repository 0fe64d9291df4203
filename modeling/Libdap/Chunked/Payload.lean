import Libdap.Chunked.Refinement

/-! # What a stream of chunks has for its client

The chunks of a stream are DATA chunks up to a last one that says how the stream
ends. The payload is what a client is to be given of them, and the verdict the
error message it is to be given after that. A block read takes the octets it
asks for off the front of the payload and changes nothing about the verdict.
-/

namespace Libdap.Chunked

/-- DATA chunks up to a last one of the type `last`, or nothing any more. -/
inductive Toward (last : ChunkType) : List Chunk → Prop
  | done : Toward last []
  | last {c} : c.type = last → Toward last [c]
  | data {c cs} : c.type = .data → cs ≠ [] → Toward last cs → Toward last (c :: cs)

/-- A whole stream: it ends with an END or an ERR chunk. -/
structure WellFormed (last : ChunkType) (cs : List Chunk) : Prop where
  toward : Toward last cs
  some : cs ≠ []
  ends : last ≠ .data

def payload : List Chunk → List UInt8
  | [] => []
  | c :: cs => if c.type = .err then [] else c.body ++ payload cs

/-- The message of the error chunk. -/
def message : List Chunk → Option (List UInt8)
  | [] => none
  | c :: cs => if c.type = .err then some c.body else message cs

namespace Toward

theorem drain_stored {last cs} (toward : Toward last cs) (k : Nat) :
    (drain k cs).stored = (payload cs).take k := by
  induction toward generalizing k with
  | done => simp [drain, payload]
  | @last c kind =>
      simp only [drain, payload, List.append_nil]
      cases type : c.type with
      | err => simp
      | «end» => simp
      | data =>
          by_cases few : c.body.length < k
          · simp [few, List.take_of_length_le few.le]
          · simp [few]
  | @data c cs type some rest ih =>
      by_cases few : c.body.length < k
      · simp [drain, payload, type, few, ih, List.take_append, List.take_of_length_le few.le]
      · have all : k ≤ c.body.length := Nat.le_of_not_lt few
        simp [drain, payload, type, few, List.take_append_of_le_length all]

theorem drain_payload {last cs} (toward : Toward last cs) (k : Nat) :
    (drain k cs).area ++ payload (drain k cs).chunks = (payload cs).drop k := by
  induction toward generalizing k with
  | done => simp [drain, payload]
  | @last c kind =>
      simp only [drain, payload, List.append_nil]
      cases type : c.type with
      | err => simp [payload]
      | «end» => simp [payload]
      | data =>
          by_cases few : c.body.length < k
          · simp [few, payload, List.drop_of_length_le few.le]
          · simp [few, payload]
  | @data c cs type some rest ih =>
      by_cases few : c.body.length < k
      · simp [drain, payload, type, few, ih, List.drop_append, List.drop_of_length_le few.le]
      · have all : k ≤ c.body.length := Nat.le_of_not_lt few
        simp [drain, payload, type, few, List.drop_append_of_le_length all]

theorem drain_toward {last cs} (toward : Toward last cs) (k : Nat) :
    Toward last (drain k cs).chunks := by
  induction toward generalizing k with
  | done => exact .done
  | @last c kind =>
      simp only [drain]
      split
      · exact .done
      · exact .done
      split
      · exact .done
      · exact .done
  | @data c cs type some rest ih =>
      simp only [drain, type]
      split
      · exact ih _
      · exact rest

/-- A request for something is met when there is that much, or else when the END
    chunk is still there to stop at. -/
theorem drain_counted {last cs} (toward : Toward last cs) {k : Nat} (pos : 0 < k) :
    (drain k cs).stop = .counted ↔ k ≤ (payload cs).length ∨ (last = .end ∧ cs ≠ []) := by
  induction toward generalizing k with
  | done =>
      simp only [drain, payload, List.length_nil]
      simp
      omega
  | @last c kind =>
      subst kind
      simp only [drain, payload, List.append_nil]
      cases type : c.type with
      | err =>
          simp
          omega
      | «end» => simp
      | data =>
          by_cases few : c.body.length < k
          · simp [few]
          · simp only [if_neg few, true_iff]
            simpa using few
  | @data c cs type some rest ih =>
      by_cases few : c.body.length < k
      · have more : 0 < k - c.body.length := by omega
        have left : k - c.body.length ≤ (payload cs).length ↔
            k ≤ c.body.length + (payload cs).length := by omega
        simp [drain, payload, type, few, ih more, left, some]
      · simp only [drain, payload, type, if_neg few, true_iff, reduceCtorEq, if_false,
          List.length_append]
        omega

/-- An END chunk is where a request stops, whatever it asks for. -/
theorem drain_end {cs} (toward : Toward .end cs) (k : Nat) :
    (drain k cs).stop = .counted ↔ cs ≠ [] := by
  induction toward generalizing k with
  | done => simp [drain]
  | @last c kind => simp [drain, kind]
  | @data c cs type some rest ih =>
      by_cases few : c.body.length < k
      · simp [drain, type, few, ih, some]
      · simp [drain, type, few]

theorem drain_verdict {last cs} (toward : Toward last cs) (k : Nat) (tail report) :
    (message (drain k cs).chunks).or ((drain k cs).feed tail report).report =
      (message cs).or report := by
  induction toward generalizing k with
  | done => rfl
  | @last c kind =>
      cases type : c.type with
      | err => simp [drain, Drained.feed, message, type]
      | «end» => simp [drain, Drained.feed, message, type]
      | data =>
          by_cases few : c.body.length < k
          · simp [drain, Drained.feed, message, type, few]
          · simp [drain, Drained.feed, message, type, few]
  | @data c cs type some rest ih =>
      by_cases few : c.body.length < k
      · simp only [drain, type, if_pos few, message, reduceCtorEq, if_false]
        exact ih _
      · simp [drain, Drained.feed, message, type, few]

theorem message_err {cs} (toward : Toward .err cs) (some : cs ≠ []) : (message cs).isSome := by
  induction toward with
  | done => cases some rfl
  | last kind => simp [message, kind]
  | data type more rest ih => simpa [message, type] using ih more

theorem message_end {cs} (toward : Toward .end cs) : message cs = none := by
  induction toward with
  | done => rfl
  | last kind => simp [message, kind]
  | data type more rest ih => simpa [message, type] using ih

end Toward

namespace Feed

/-- What the client is still to be given. -/
def payload (f : Feed) : List UInt8 := f.area ++ Chunked.payload f.chunks

/-- What a block read of `n` octets asks for after its count has been reduced. -/
def request (f : Feed) (n : Nat) : Nat :=
  if n ≤ f.area.length then n else f.area.length + (n - f.area.length) % 2 ^ 32

/-- The error message, now or when the chunks have been read. -/
def verdict (f : Feed) : Option (List UInt8) := (message f.chunks).or f.report

theorem request_le (f : Feed) (n : Nat) : f.request n ≤ n := by
  unfold request
  split
  · exact le_refl n
  · have reduced := Nat.mod_le (n - f.area.length) (2 ^ 32)
    omega

theorem request_eq {f : Feed} {n : Nat} (small : n < f.area.length + 2 ^ 32) : f.request n = n := by
  unfold request
  split
  · rfl
  · rw [Nat.mod_eq_of_lt (by omega)]
    omega

section

variable {last : ChunkType} {f : Feed} (toward : Toward last f.chunks) (n : Nat)

include toward

theorem read_stored : (f.read n).stored = f.payload.take (f.request n) := by
  unfold read request payload
  split
  · rename_i few
    rw [List.take_append_of_le_length few]
  · rw [List.take_length_add_append, ← toward.drain_stored]

theorem read_payload : (f.read n).feed.payload = f.payload.drop (f.request n) := by
  unfold read request payload
  split
  · rename_i few
    rw [List.drop_append_of_le_length few]
  · rw [List.drop_length_add_append]
    exact toward.drain_payload _

theorem read_toward : Toward last (f.read n).feed.chunks := by
  unfold read
  split
  · exact toward
  · exact toward.drain_toward _

theorem read_verdict : (f.read n).feed.verdict = f.verdict := by
  unfold read
  split
  · rfl
  · exact toward.drain_verdict _ _ _

theorem read_counted (small : n < f.area.length + 2 ^ 32) (enough : n ≤ f.payload.length) :
    (f.read n).stop = .counted := by
  unfold read
  split
  · rfl
  · rename_i many
    apply (toward.drain_counted _).mpr
    · left
      rw [payload, List.length_append] at enough
      rw [Nat.mod_eq_of_lt (by omega)]
      omega
    · rw [Nat.mod_eq_of_lt (by omega)]
      omega

end

theorem read_counted_end {f : Feed} (toward : Toward .end f.chunks) (n : Nat)
    (closed : f.chunks ≠ []) : (f.read n).stop = .counted := by
  unfold read
  split
  · rfl
  · exact (toward.drain_end _).mpr closed

theorem read_report {f : Feed} {n : Nat} (counted : (f.read n).stop = .counted) :
    (f.read n).feed.report = f.report := by
  unfold read at counted ⊢
  split
  · rfl
  · rename_i many
    simp only [if_neg many] at counted
    simp only [Drained.feed, counted]

theorem read_exhausted {f : Feed} {n : Nat} (none : f.chunks = []) (many : f.area.length < n) :
    (f.read n).stop = .exhausted := by
  simp [read, Nat.not_le.mpr many, none, drain]

theorem read_tail {f : Feed} (n : Nat) (tail : f.tail = []) : (f.read n).feed.tail = [] := by
  unfold read
  split
  · exact tail
  · simp [Drained.feed, tail]

end Feed

end Libdap.Chunked
