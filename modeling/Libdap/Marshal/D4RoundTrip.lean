import Libdap.Foundation.Coding
import Libdap.Marshal.D4StreamMarshaller
import Libdap.Marshal.D4StreamUnMarshaller

/-! # What comes back of values sent as DAP4

The sender writes in the order of its own host and the receiver makes it right. A value
comes back when every length, count and checksum in it reads the same in both orders and
when what is left to a child thread is short enough for it.
-/

namespace Libdap.Marshal.D4RoundTrip

open Ints Words

/-- The types of single numbers. -/
inductive Number where
  | byte
  | int8
  | int16
  | uint16
  | int32
  | uint32
  | int64
  | uint64
  | float32
  | float64
  deriving Repr, DecidableEq

def Number.width : Number → Nat
  | byte | int8 => 1
  | int16 | uint16 => 2
  | int32 | uint32 | float32 => 4
  | int64 | uint64 | float64 => 8

/-- A value that can be put; a number is the word that it is in memory. -/
inductive Datum where
  | number (t : Number) (n : Nat) (small : n < 256 ^ t.width)
  | str (val : List UInt8) (small : val.length < 2 ^ 63)
  | block (val : List UInt8) (small : val.length < 2 ^ 63)
  | count (n : Nat) (small : n < 2 ^ 64)
  | bytes (val : List UInt8)
  | vector (t : Elem) (wide : t.width ≠ 1) (words : List Nat) (small : ∀ n ∈ words, n < 256 ^ t.width)

/-- A call: put a value, or the checksum so far. -/
inductive Call where
  | datum (d : Datum)
  | checksum

/-- What a call sends. -/
inductive Item where
  | datum (d : Datum)
  | checksum (c : UInt32)

inductive Request where
  | number (t : Number)
  | str
  | block
  | count
  | bytes (num : Nat)
  | vector (t : Elem) (num : Nat)
  | checksum

inductive Answer where
  | word (n : Nat)
  | octets (data : List UInt8)
  | words (vals : List Nat)
  deriving DecidableEq

def Item.request : Item → Request
  | .datum (.number t _ _) => .number t
  | .datum (.str _ _) => .str
  | .datum (.block _ _) => .block
  | .datum (.count _ _) => .count
  | .datum (.bytes val) => .bytes val.length
  | .datum (.vector t _ words _) => .vector t words.length
  | .checksum _ => .checksum

def Item.answer : Item → Answer
  | .datum (.number _ n _) => .word n
  | .datum (.str val _) => .octets val
  | .datum (.block val _) => .octets val
  | .datum (.count n _) => .word n
  | .datum (.bytes val) => .octets val
  | .datum (.vector _ _ words _) => .words words
  | .checksum c => .word c.toNat

open D4StreamMarshaller in
/-- The method that puts a number. -/
def putNumber (host : ByteOrder) (m : D4StreamMarshaller) : Number → Nat → Effect
  | .byte => putByte host m
  | .int8 => putInt8 host m
  | .int16 => putInt16 host m
  | .uint16 => putUInt16 host m
  | .int32 => putInt32 host m
  | .uint32 => putUInt32 host m
  | .int64 => putInt64 host m
  | .uint64 => putUInt64 host m
  | .float32 => putFloat32 host m
  | .float64 => putFloat64 host m

open D4StreamMarshaller in
def putDatum (host : ByteOrder) (m : D4StreamMarshaller) : Datum → Effect
  | .number t n _ => putNumber host m t n
  | .str val _ => putStr host m val
  | .block val _ => putOpaqueDap4 host m val
  | .count n _ => putCount host m n
  | .bytes val => m.putVectorBytes val val.length
  | .vector t _ words _ => m.putVectorOf (words.flatMap (octets host t.width)) words.length t

/-- One call after the other. -/
def putCalls (host : ByteOrder) : List Call → D4StreamMarshaller → D4StreamMarshaller.Effect
  | [], m => ([], m)
  | .datum d :: calls, m =>
      let (sections, next) := putDatum host m d
      let (others, last) := putCalls host calls next
      (sections ++ others, last)
  | .checksum :: calls, m =>
      let (sections, next) := m.putChecksum host
      let (others, last) := putCalls host calls next
      (sections ++ others, last)

/-- What the calls send, with the checksums that they come to. -/
def items (host : ByteOrder) : List Call → D4StreamMarshaller → List Item
  | [], _ => []
  | .datum d :: calls, m => .datum d :: items host calls (putDatum host m d).2
  | .checksum :: calls, m => .checksum m.checksum.getCrc32 :: items host calls m

/-- The octets of an item. They do not depend on the checksum so far. -/
def Item.put (host : ByteOrder) : Item → Option (List UInt8)
  | .datum d => emit (putDatum host ⟨.reset, true⟩ d).1
  | .checksum c => emit [.write (octets host 4 c.toNat)]

open D4StreamUnMarshaller in
/-- The method that gets a number. -/
def getNumber (host : ByteOrder) (twiddle : Bool) :
    Number → InStream UInt8 → Option (Nat × InStream UInt8)
  | .byte => getByte host
  | .int8 => getInt8 host
  | .int16 => getInt16 host twiddle
  | .uint16 => getUInt16 host twiddle
  | .int32 => getInt32 host twiddle
  | .uint32 => getUInt32 host twiddle
  | .int64 => getInt64 host twiddle
  | .uint64 => getUInt64 host twiddle
  | .float32 => getFloat32 host twiddle
  | .float64 => getFloat64 host twiddle

open D4StreamUnMarshaller in
/-- The method that gets a vector of numbers. -/
def getVectorOf (host : ByteOrder) (twiddle : Bool) (t : Elem) (num : Nat) :
    InStream UInt8 → Option (List Nat × InStream UInt8) :=
  match t with
  | .float32 => getVectorFloat32 host twiddle num
  | .float64 => getVectorFloat64 host twiddle num
  | t => getVector host twiddle num t.width

open D4StreamUnMarshaller in
def get (host : ByteOrder) (twiddle : Bool) :
    Request → InStream UInt8 → Option (Answer × InStream UInt8)
  | .number t, s => (getNumber host twiddle t s).map fun r => (.word r.1, r.2)
  | .str, s => (getStr host s).map fun r => (.octets r.1, r.2)
  | .block, s => (getOpaqueDap4 host s).map fun r => (.octets r.1, r.2)
  | .count, s => (getCount host s).map fun r => (.word r.1, r.2)
  | .bytes num, s => (getVectorBytes num s).map fun r => (.octets r.1, r.2)
  | .vector t num, s => (getVectorOf host twiddle t num s).map fun r => (.words r.1, r.2)
  | .checksum, s => (getChecksum host s).map fun r => (.word r.1, r.2)

variable (sender receiver : ByteOrder)

/-- The receiver's flag says whether the two orders differ. -/
def coding : Coding UInt8 Item Request Answer (InStream UInt8) where
  put := Item.put sender
  request := Item.request
  result := Item.answer
  get := get receiver (decide (sender ≠ receiver))
  At := D4StreamUnMarshaller.At

/-- A word that is the same in both orders. -/
def Kept (width n : Nat) : Prop := sender = receiver ∨ swap width n = n

/-- The items that come back. -/
def Good : Item → Prop
  | .datum (.number _ _ _) => True
  | .datum (.str val _) => Kept sender receiver 8 val.length
  | .datum (.block val _) => Kept sender receiver 8 val.length ∧ val.length < 2 ^ 31
  | .datum (.count n _) => Kept sender receiver 8 n
  | .datum (.bytes val) => val.length < 2 ^ 31
  | .datum (.vector t _ words _) => words.length * t.width < 2 ^ 31
  | .checksum c => Kept sender receiver 4 c.toNat

variable {sender receiver}

theorem word_eq_iff {width n : Nat} (small : n < 256 ^ width) :
    word receiver (octets sender width n) = n ↔ Kept sender receiver width n := by
  unfold Kept
  by_cases same : sender = receiver
  · subst same
    simp [word_octets_of_lt _ small]
  · simp [same, word_octets_of_ne same]

/-! ## The octets of each item -/

/-- The section that a value goes through. -/
def section_ (host : ByteOrder) : Datum → Section
  | .number t n _ => .write (octets host t.width n)
  | .str val _ => .write (octets host 8 val.length ++ val)
  | .block val _ => ⟨octets host 8 val.length, some (val, val.length)⟩
  | .count n _ => .write (octets host 8 n)
  | .bytes val => .handOver val val.length
  | .vector t _ words _ =>
      .handOver (words.flatMap (octets host t.width)) (words.length * t.width)

theorem putDatum_sections (host : ByteOrder) {m : D4StreamMarshaller} (writes : m.writeData = true)
    (d : Datum) : (putDatum host m d).1 = [section_ host d] := by
  cases d with
  | number t n small => cases t <;> exact if_pos writes
  | str val small => exact if_pos writes
  | block val small => exact if_pos writes
  | count n small => rfl
  | bytes val =>
      have whole : val.take val.length = val := List.take_length
      simp only [putDatum, D4StreamMarshaller.putVectorBytes, whole, writes, if_true, section_]
  | vector t wide words small =>
      have whole := List.take_length (l := words.flatMap (octets host t.width))
      rw [D4StreamUnMarshaller.length_words] at whole
      simp only [putDatum, D4StreamMarshaller.putVectorOf_eq, D4StreamMarshaller.putVectorBytes, whole,
        writes, if_true, section_]

/-- No call changes whether data are written. -/
theorem putDatum_writeData (host : ByteOrder) (m : D4StreamMarshaller) (d : Datum) :
    (putDatum host m d).2.writeData = m.writeData := by
  cases d with
  | number t n small => cases t <;> rfl
  | vector t wide words small => rw [putDatum, D4StreamMarshaller.putVectorOf_eq]; rfl
  | _ => rfl

theorem put_datum (host : ByteOrder) (d : Datum) : (Item.datum d).put host = emit [section_ host d] := by
  rw [Item.put, putDatum_sections host rfl]

theorem coding_put (d : Datum) : (coding sender receiver).put (.datum d) = emit [section_ sender d] :=
  put_datum sender d

/-- A run of calls leaves the octets of the items that it sends. -/
theorem emit_putCalls (calls : List Call) (m : D4StreamMarshaller) (writes : m.writeData = true) :
    emit (putCalls sender calls m).1 = (coding sender receiver).putAll (items sender calls m) := by
  induction calls generalizing m with
  | nil => rfl
  | cons call calls ih =>
      cases call with
      | datum d =>
          have others := ih (putDatum sender m d).2 ((putDatum_writeData sender m d).trans writes)
          simp only [putCalls, items, Coding.putAll, emit_append, putDatum_sections sender writes, others]
          rw [coding_put]
          cases emit [section_ sender d] <;> cases (coding sender receiver).putAll _ <;> rfl
      | checksum =>
          have others := ih m writes
          simp only [putCalls, items, Coding.putAll, emit_append, D4StreamMarshaller.putChecksum, others]
          rw [show (coding sender receiver).put (.checksum m.checksum.getCrc32) =
            emit [.write (octets sender 4 m.checksum.getCrc32.toNat)] from rfl]
          cases emit [.write (octets sender 4 m.checksum.getCrc32.toNat)] <;>
            cases (coding sender receiver).putAll _ <;> rfl

open D4StreamUnMarshaller

theorem getNumber_spec {t : Number} {n : Nat} {s : InStream UInt8} {rest : List UInt8}
    (small : n < 256 ^ t.width) (place : At s (octets sender t.width n ++ rest)) :
    ∃ u, getNumber receiver (decide (sender ≠ receiver)) t s = some (n, u) ∧ At u rest := by
  have octet : t.width = 1 → word receiver (octets sender t.width n) = n := by
    intro one
    rw [one] at small ⊢
    exact (word_eq_iff small).mpr (Or.inr (by simp [swap, ascending, fromAscending]; omega))
  obtain ⟨u, got, placed⟩ := readWord_spec receiver place
  obtain ⟨v, swapped, after⟩ := getWord_spec receiver small place
  cases t with
  | byte => exact ⟨u, got.trans (congrArg (fun n => some (n, u)) (octet rfl)), placed⟩
  | int8 => exact ⟨u, got.trans (congrArg (fun n => some (n, u)) (octet rfl)), placed⟩
  | _ => exact ⟨v, swapped, after⟩

theorem getVectorOf_eq {host : ByteOrder} {twiddle : Bool} (t : Elem) (num : Nat) :
    getVectorOf host twiddle t num = getVector host twiddle num t.width := by
  cases t <;> rfl

theorem getVectorOf_spec {t : Elem} {words : List Nat} {s : InStream UInt8} {rest : List UInt8}
    (wide : t.width ≠ 1) (small : ∀ n ∈ words, n < 256 ^ t.width)
    (place : At s (words.flatMap (octets sender t.width) ++ rest)) :
    ∃ u, getVectorOf receiver (decide (sender ≠ receiver)) t words.length s = some (words, u) ∧
      At u rest := by
  have known : t.width = 2 ∨ t.width = 4 ∨ t.width = 8 := by
    cases t with
    | enum k =>
        have widths : ∀ k : Fin 4, (Elem.enum k).width ≠ 1 →
            (Elem.enum k).width = 2 ∨ (Elem.enum k).width = 4 ∨ (Elem.enum k).width = 8 := by decide
        exact widths k wide
    | _ => simp_all [Elem.width]
  rw [getVectorOf_eq]
  exact getVector_spec known small place

theorem getVectorOf_short {host : ByteOrder} {twiddle : Bool} {t : Elem} {num : Nat}
    {s : InStream UInt8} {xs : List UInt8} (place : At s xs) (short : xs.length < num * t.width) :
    getVectorOf host twiddle t num s = none := by
  rw [getVectorOf_eq, getVector, readOctets_short place short]
  rfl

/-- What one section leaves, and how many of a buffer's octets at most. -/
theorem of_emit_section {sec : Section} {bytes : List UInt8} (ok : emit [sec] = some bytes) :
    bytes = sec.written := by
  unfold emit at ok
  split at ok
  · cases ok
    exact List.flatMap_singleton ..
  · cases ok

theorem kept_lt (n : Nat) : (kept n).toNat < 2 ^ 31 := by
  have bound : kept n < 2 ^ 31 := (i32_fits _).2
  generalize kept n = k at bound
  omega

theorem number_exact {t : Number} {n : Nat} (small : n < 256 ^ t.width) :
    (coding sender receiver).Exact (.datum (.number t n small)) := by
  refine ⟨octets sender t.width n, by rw [coding_put, section_, emit_write], ?_⟩
  intro s rest place
  obtain ⟨u, got, placed⟩ := getNumber_spec small place
  exact ⟨u, congrArg (Option.map _) got, placed⟩

/-- A word that is read without a swap comes back if it is the same in both orders. -/
theorem readWord_kept {width n : Nat} (small : n < 256 ^ width) (kept : Kept sender receiver width n)
    {s : InStream UInt8} {rest : List UInt8} (place : At s (octets sender width n ++ rest)) :
    ∃ u, readWord receiver width s = some (n, u) ∧ At u rest := by
  obtain ⟨u, got, placed⟩ := readWord_spec receiver place
  rw [(word_eq_iff small).mpr kept] at got
  exact ⟨u, got, placed⟩

/-- And only then. -/
theorem kept_of_readWord {width n : Nat} (small : n < 256 ^ width) {s u : InStream UInt8}
    {rest : List UInt8} (place : At s (octets sender width n ++ rest))
    (got : readWord receiver width s = some (n, u)) : Kept sender receiver width n := by
  obtain ⟨v, read, -⟩ := readWord_spec receiver place
  exact (word_eq_iff small).mp (congrArg Prod.fst (Option.some.inj (read.symm.trans got)))

/-- Counted octets come back if their length does. -/
theorem getCounted_kept {val : List UInt8} (small : val.length < 2 ^ 63)
    (kept : Kept sender receiver 8 val.length) {s : InStream UInt8} {rest : List UInt8}
    (place : At s (octets sender 8 val.length ++ (val ++ rest))) :
    ∃ u, getCounted receiver s = some (val, u) ∧ At u rest :=
  getCounted_spec small ((word_eq_iff (by omega)).mpr kept) place

theorem kept_of_getCounted {val xs : List UInt8} (small : val.length < 2 ^ 63) {s u : InStream UInt8}
    (place : At s (octets sender 8 val.length ++ xs)) (got : getCounted receiver s = some (val, u)) :
    Kept sender receiver 8 val.length ∧ val.length ≤ xs.length := by
  obtain ⟨length, enough⟩ := length_of_getCounted place got
  exact ⟨(word_eq_iff (by omega)).mp length.symm, enough⟩

/-- The good items come back. -/
theorem exact_of_good (item : Item) (good : Good sender receiver item) :
    (coding sender receiver).Exact item := by
  cases item with
  | checksum c =>
      have small : c.toNat < 256 ^ 4 := c.toNat_lt
      refine ⟨octets sender 4 c.toNat, emit_write _, ?_⟩
      intro s rest place
      obtain ⟨u, got, placed⟩ := readWord_kept small good place
      exact ⟨u, congrArg (Option.map _) got, placed⟩
  | datum d =>
      cases d with
      | number t n small => exact number_exact small
      | str val small =>
          refine ⟨_, by rw [coding_put, section_, emit_write], ?_⟩
          intro s rest place
          rw [List.append_assoc] at place
          obtain ⟨u, got, placed⟩ := getCounted_kept small good place
          exact ⟨u, congrArg (Option.map _) got, placed⟩
      | block val small =>
          have left := emit_section (show Keeps val.length from good.2) (octets sender 8 val.length) val
          rw [List.take_length] at left
          refine ⟨_, by rw [coding_put, section_, left], ?_⟩
          intro s rest place
          rw [List.append_assoc] at place
          obtain ⟨u, got, placed⟩ := getCounted_kept small good.1 place
          exact ⟨u, congrArg (Option.map _) got, placed⟩
      | count n small =>
          refine ⟨octets sender 8 n, by rw [coding_put, section_, emit_write], ?_⟩
          intro s rest place
          obtain ⟨u, got, placed⟩ := readWord_kept (show n < 256 ^ 8 by omega) good place
          exact ⟨u, congrArg (Option.map _) got, placed⟩
      | bytes val =>
          have left := emit_handOver (show Keeps val.length from good) val
          rw [List.take_length] at left
          refine ⟨val, by rw [coding_put, section_, left], ?_⟩
          intro s rest place
          obtain ⟨u, got, placed⟩ := readOctets_spec place
          exact ⟨u, congrArg (Option.map _) got, placed⟩
      | vector t wide words small =>
          have left := emit_handOver (show Keeps (words.length * t.width) from good)
            (words.flatMap (octets sender t.width))
          rw [← length_words sender, List.take_length] at left
          refine ⟨words.flatMap (octets sender t.width), ?_, ?_⟩
          · rw [coding_put, section_, ← length_words sender, left]
          · intro s rest place
            obtain ⟨u, got, placed⟩ := getVectorOf_spec wide small place
            exact ⟨u, congrArg (Option.map _) got, placed⟩

/-- The others go astray when nothing follows. -/
theorem astray_of_bad (item : Item) (bad : ¬Good sender receiver item) :
    (coding sender receiver).Astray item := by
  intro bytes put
  refine ⟨[], fun s place u result => ?_⟩
  rw [List.append_nil] at place
  change At s bytes at place
  intro _
  cases item with
  | checksum c =>
      have small : c.toNat < 256 ^ 4 := c.toNat_lt
      have left : bytes = octets sender 4 c.toNat := Option.some.inj (put.symm.trans (emit_write _))
      rw [left, ← List.append_nil (octets _ _ _)] at place
      obtain ⟨⟨n, v⟩, got, same⟩ := Option.map_eq_some_iff.mp result
      cases same
      exact bad (kept_of_readWord small place got)
  | datum d =>
      rw [coding_put] at put
      have left := of_emit_section put
      cases d with
      | number t n small => exact bad trivial
      | str val small =>
          rw [section_, Section.written_write] at left
          rw [left] at place
          obtain ⟨⟨data, v⟩, got, same⟩ := Option.map_eq_some_iff.mp result
          cases same
          exact bad (kept_of_getCounted small place got).1
      | block val small =>
          have few := kept_lt val.length
          rw [section_, Section.written] at left
          rw [left] at place
          obtain ⟨⟨data, v⟩, got, same⟩ := Option.map_eq_some_iff.mp result
          cases same
          obtain ⟨same, enough⟩ := kept_of_getCounted small place got
          rw [List.length_take] at enough
          exact bad ⟨same, by omega⟩
      | count n small =>
          rw [section_, Section.written_write] at left
          rw [left, ← List.append_nil (octets _ _ _)] at place
          obtain ⟨⟨m, v⟩, got, same⟩ := Option.map_eq_some_iff.mp result
          cases same
          exact bad (kept_of_readWord (by omega) place got)
      | bytes val =>
          have few := kept_lt val.length
          have large : 2 ^ 31 ≤ val.length := Nat.le_of_not_lt bad
          have short : bytes.length < val.length := by
            rw [left, section_, Section.written_handOver, List.length_take]
            omega
          obtain ⟨⟨data, v⟩, got, -⟩ := Option.map_eq_some_iff.mp result
          rw [show getVectorBytes val.length s = none from readOctets_short place short] at got
          cases got
      | vector t wide words small =>
          have few := kept_lt (words.length * t.width)
          have large : 2 ^ 31 ≤ words.length * t.width := Nat.le_of_not_lt bad
          have short : bytes.length < words.length * t.width := by
            rw [left, section_, Section.written_handOver, List.length_take]
            omega
          obtain ⟨⟨vals, v⟩, got, -⟩ := Option.map_eq_some_iff.mp result
          rw [getVectorOf_short place short] at got
          cases got

/-- Each value that is sent comes back in its turn, whatever the orders of the two hosts, if
    and only if all of them are good; and what is sent is what the calls leave. -/
theorem madeRight_iff (sender receiver : ByteOrder) (calls : List Call) (c : Crc32) :
    emit (putCalls sender calls ⟨c, true⟩).1 =
        (coding sender receiver).putAll (items sender calls ⟨c, true⟩) ∧
    ((∀ sent, sent <+: items sender calls ⟨c, true⟩ → (coding sender receiver).RoundTrips sent) ↔
      ∀ item ∈ items sender calls ⟨c, true⟩, Good sender receiver item) := by
  refine ⟨emit_putCalls calls ⟨c, true⟩ rfl, ?_⟩
  exact Coding.roundTrips_iff (fun input => ⟨⟨input, false⟩, rfl⟩)
    (fun item _ => exact_of_good item) (fun item _ => astray_of_bad item)

/-- A string of one character from a big-endian host does not come back on a little-endian
    one, where its length is read as `2 ^ 56`. -/
theorem oneCharacter_unswapped : ¬∀ (sender receiver : ByteOrder) (calls : List Call) (c : Crc32),
    (coding sender receiver).RoundTrips (items sender calls ⟨c, true⟩) := by
  intro claim
  have bad : ¬Good .big .little (.datum (.str [65] (by simp))) := by
    rintro (same | same)
    · exact absurd same (by decide)
    · exact absurd same (by decide)
  exact Coding.not_roundTrips_snoc (fun input => ⟨⟨input, false⟩, rfl⟩) Coding.roundTrips_nil
    (astray_of_bad _ bad) (claim .big .little [.datum (.str [65] (by simp))] .reset)

end Libdap.Marshal.D4RoundTrip
