import Libdap.Foundation.InStream
import Libdap.Foundation.Words

/-! # D4StreamUnMarshaller

Values are read as they lie in the stream; the reader swaps the octets of numbers when
the data come from a host of the other byte order. A read that comes up short throws.
The lengths in front of strings and opaque data, the counts and the checksums are read
without a swap.
-/

namespace Libdap.Marshal.D4StreamUnMarshaller

open Words

/-- Read `n` octets, or throw. -/
def readOctets (n : Nat) (s : InStream UInt8) : Option (List UInt8 × InStream UInt8) :=
  if (s.read n).2.eof then none else some (s.read n)

variable (host : ByteOrder) (twiddle : Bool)

/-- A word in the host's memory. -/
def readWord (width : Nat) (s : InStream UInt8) : Option (Nat × InStream UInt8) :=
  (readOctets width s).map fun r => (word host r.1, r.2)

/-- `bswap_16`, `bswap_32` or `bswap_64`, when the octets are to be swapped. -/
def twiddled (width n : Nat) : Nat := if twiddle then swap width n else n

def getWord (width : Nat) (s : InStream UInt8) : Option (Nat × InStream UInt8) :=
  (readWord host width s).map fun r => (twiddled twiddle width r.1, r.2)

def getByte := readWord host 1

def getInt8 := readWord host 1

def getInt16 := getWord host twiddle 2

def getInt32 := getWord host twiddle 4

def getInt64 := getWord host twiddle 8

def getFloat32 := getWord host twiddle 4

def getFloat64 := getWord host twiddle 8

def getUInt16 := getWord host twiddle 2

def getUInt32 := getWord host twiddle 4

def getUInt64 := getWord host twiddle 8

/-- `get_checksum`. -/
def getChecksum := readWord host 4

def getCount := readWord host 8

/-- The octets that follow their length, an `int64_t`. Memory of a negative length is
    not to be had. -/
def getCounted (s : InStream UInt8) : Option (List UInt8 × InStream UInt8) := do
  let (len, s) ← readWord host 8 s
  if 2 ^ 63 ≤ len then none else readOctets len s

def getStr := getCounted host

def getOpaqueDap4 := getCounted host

/-- `get_vector` for octets. -/
def getVectorBytes (bytes : Nat) := readOctets bytes

/-- `m_twidle_vector_elements`, on the words in memory. -/
def twidleVectorElements (width : Nat) (vals : List Nat) : Option (List Nat) :=
  if width = 2 ∨ width = 4 ∨ width = 8 then some (vals.map (swap width)) else none

/-- The words of a vector, swapped when they are to be. -/
def twiddledVector (width : Nat) (vals : List Nat) : Option (List Nat) :=
  if twiddle then twidleVectorElements width vals else some vals

/-- The words that octets in memory spell. -/
def wordsOf (width : Nat) : Nat → List UInt8 → List Nat
  | 0, _ => []
  | num + 1, octets => word host (octets.take width) :: wordsOf width num (octets.drop width)

/-- `get_vector` for numbers, as the words that they are then in memory. -/
def getVector (numElem elemSize : Nat) (s : InStream UInt8) :
    Option (List Nat × InStream UInt8) := do
  let (octets, s) ← readOctets (numElem * elemSize) s
  let vals ← twiddledVector twiddle elemSize (wordsOf host elemSize numElem octets)
  return (vals, s)

def getVectorFloat32 (numElem : Nat) := getVector host twiddle numElem 4

def getVectorFloat64 (numElem : Nat) := getVector host twiddle numElem 8

variable {host twiddle} {s : InStream UInt8}

/-- The reader has these octets before it. -/
def At (s : InStream UInt8) (bytes : List UInt8) : Prop := s = ⟨bytes, false⟩

theorem readOctets_spec {xs rest : List UInt8} (place : At s (xs ++ rest)) :
    ∃ t, readOctets xs.length s = some (xs, t) ∧ At t rest := by
  rw [readOctets, show s = _ from place, InStream.read_append]
  exact ⟨_, rfl, rfl⟩

theorem readOctets_short {n : Nat} {xs : List UInt8} (place : At s xs) (short : xs.length < n) :
    readOctets n s = none := by
  rw [readOctets, show s = _ from place, InStream.read_short rfl short]
  rfl

theorem length_of_readOctets {n : Nat} {xs : List UInt8} {t : InStream UInt8}
    (ok : readOctets n s = some (xs, t)) : xs.length = n := by
  unfold readOctets at ok
  split at ok
  · cases ok
  · rename_i good
    have length := InStream.length_of_read_good (Bool.eq_false_iff.mpr good)
    have got := congrArg Prod.fst (Option.some.inj ok)
    simp only at got
    unfold InStream.read at got length
    split at got
    · rename_i ended
      simp [InStream.read, ended] at good
    · rename_i notEnded
      rw [if_neg notEnded] at length
      simp only [List.length_drop] at length
      rw [← got, List.length_take]
      omega

/-- A word comes back as it is spelled in the order of the reader's host. -/
theorem readWord_spec (host : ByteOrder) {sender : ByteOrder} {width n : Nat} {rest : List UInt8}
    (place : At s (octets sender width n ++ rest)) :
    ∃ t, readWord host width s = some (word host (octets sender width n), t) ∧ At t rest := by
  obtain ⟨t, ok, placed⟩ := readOctets_spec place
  rw [length_octets] at ok
  exact ⟨t, by rw [readWord, ok, Option.map_some], placed⟩

/-- With the flag telling whether the orders differ, a number that is swapped comes back. -/
theorem twiddled_word {sender : ByteOrder} {width n : Nat} (small : n < 256 ^ width) :
    twiddled (decide (sender ≠ host)) width (word host (octets sender width n)) = n := by
  by_cases same : sender = host
  · subst same
    simp [twiddled, word_octets_of_lt _ small]
  · rw [twiddled, if_pos (by simp [same]), word_octets_of_ne same, swap_swap small]

theorem getWord_spec (host : ByteOrder) {sender : ByteOrder} {width n : Nat} {rest : List UInt8} (small : n < 256 ^ width)
    (place : At s (octets sender width n ++ rest)) :
    ∃ t, getWord host (decide (sender ≠ host)) width s = some (n, t) ∧ At t rest := by
  obtain ⟨t, ok, placed⟩ := readWord_spec host place
  exact ⟨t, by rw [getWord, ok, Option.map_some, twiddled_word small], placed⟩

theorem wordsOf_octets (sender : ByteOrder) (width : Nat) (words : List Nat) :
    wordsOf host width words.length (words.flatMap (octets sender width)) =
      words.map fun n => word host (octets sender width n) := by
  induction words with
  | nil => rfl
  | cons n words ih =>
      have length := length_octets sender width n
      rw [List.flatMap_cons, List.length_cons, wordsOf, List.take_left' length, List.drop_left' length,
        ih, List.map_cons]

theorem length_words (sender : ByteOrder) (width : Nat) (words : List Nat) :
    (words.flatMap (octets sender width)).length = words.length * width := by
  induction words with
  | nil => simp
  | cons n words ih => simp [ih, Nat.succ_mul, Nat.add_comm]

theorem twiddledVector_eq {width : Nat} (known : width = 2 ∨ width = 4 ∨ width = 8)
    (vals : List Nat) : twiddledVector twiddle width vals = some (vals.map (twiddled twiddle width)) := by
  cases twiddle with
  | true => exact if_pos known
  | false => exact congrArg some (List.map_id vals).symm

theorem getVector_spec {sender : ByteOrder} {width : Nat} {words : List Nat} {rest : List UInt8}
    (known : width = 2 ∨ width = 4 ∨ width = 8) (small : ∀ n ∈ words, n < 256 ^ width)
    (place : At s (words.flatMap (octets sender width) ++ rest)) :
    ∃ t, getVector host (decide (sender ≠ host)) words.length width s = some (words, t) ∧ At t rest := by
  obtain ⟨t, ok, placed⟩ := readOctets_spec place
  rw [length_words] at ok
  have back : (words.map fun n => word host (octets sender width n)).map
      (twiddled (decide (sender ≠ host)) width) = words := by
    rw [List.map_map]
    exact (List.map_congr_left fun n mem => twiddled_word (small n mem)).trans (List.map_id _)
  refine ⟨t, ?_, placed⟩
  simp only [getVector, ok, Option.bind_eq_bind, Option.bind_some, wordsOf_octets,
    twiddledVector_eq known, back]
  rfl

theorem readWord_short {width : Nat} {xs : List UInt8} (place : At s xs) (short : xs.length < width) :
    readWord host width s = none := by
  rw [readWord, readOctets_short place short, Option.map_none]

/-- Counted octets come back when their length is read as it was written. -/
theorem getCounted_spec {sender : ByteOrder} {data rest : List UInt8}
    (small : data.length < 2 ^ 63) (kept : word host (octets sender 8 data.length) = data.length)
    (place : At s (octets sender 8 data.length ++ (data ++ rest))) :
    ∃ t, getCounted host s = some (data, t) ∧ At t rest := by
  obtain ⟨next, len, placed⟩ := readWord_spec host place
  obtain ⟨t, ok, after⟩ := readOctets_spec placed
  refine ⟨t, ?_, after⟩
  simp only [getCounted, len, kept, Option.bind_eq_bind, Option.bind_some,
    if_neg (Nat.not_le.mpr small), ok]

/-- What comes back has the length that was read. -/
theorem length_of_getCounted {sender : ByteOrder} {n : Nat} {xs data : List UInt8} {t : InStream UInt8}
    (place : At s (octets sender 8 n ++ xs)) (ok : getCounted host s = some (data, t)) :
    data.length = word host (octets sender 8 n) ∧ data.length ≤ xs.length := by
  obtain ⟨next, len, placed⟩ := readWord_spec host place
  simp only [getCounted, len, Option.bind_eq_bind, Option.bind_some] at ok
  split at ok
  · cases ok
  · have length := length_of_readOctets ok
    refine ⟨length, ?_⟩
    by_contra short
    rw [readOctets_short placed (by omega)] at ok
    cases ok

end Libdap.Marshal.D4StreamUnMarshaller
