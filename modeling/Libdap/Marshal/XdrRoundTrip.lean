import Libdap.Foundation.Coding
import Libdap.Marshal.XDRStreamMarshaller
import Libdap.Marshal.XDRStreamUnMarshaller

/-! # What comes back of values sent as XDR

A value is put by one call and got back by the matching calls: a vector by `get_int`
for its number of elements and `get_vector` into memory of that size. What comes back
is exact for scalars, and for the others under a condition on their lengths.
-/

namespace Libdap.Marshal.XdrRoundTrip

open Ints Xdr

/-- A value that can be put. -/
inductive Value where
  | int (x : Int) (fits : FitsI32 x)
  | scalar (t : Scalar) (cell : Cell t)
  | str (s : List UInt8) (nulFree : ∀ b ∈ s, b ≠ 0)
  | block (data : List UInt8)
  | bytes (val : List UInt8) (some_ : val ≠ []) (int : val.length < 2 ^ 31)
  | vector (t : Scalar) (cells : List (Cell t)) (some_ : cells ≠ []) (unsigned : cells.length < 2 ^ 32)

/-- What a reader asks for. -/
inductive Request where
  | int
  | scalar (t : Scalar)
  | str
  | block (len : Nat)
  | bytes (num : Nat)
  | vector (t : Scalar) (num : Nat)

/-- What it is given: memory, for vectors with the number of their elements. -/
inductive Answer where
  | int (x : Int)
  | memory (m : List UInt8)
  | vector (num : Nat) (m : List UInt8)
  deriving DecidableEq

namespace Value

def request : Value → Request
  | int _ _ => .int
  | scalar t _ => .scalar t
  | str _ _ => .str
  | block data => .block data.length
  | bytes val _ _ => .bytes val.length
  | vector t cells _ _ => .vector t cells.length

def answer : Value → Answer
  | int x _ => .int x
  | scalar _ cell => .memory cell.octets
  | str s _ => .memory s
  | block data => .memory data
  | bytes val _ _ => .vector val.length val
  | vector _ cells _ _ => .vector cells.length (cells.flatMap Cell.octets)

/-- The lengths that come back. -/
def Good : Value → Prop
  | int _ _ | scalar _ _ => True
  | str s _ => s.length ≤ 65534
  | block data => data.length % 4 = 0
  | bytes val _ _ => val.length % 2 = 0 ∧ val.length + val.length % 4 + 4 ≤ 4096
  | vector t cells _ _ => cells.length * t.units ≠ 4096 ∧ (t.width = 2 → cells.length = 1)

end Value

variable (lib : Library)

/-- The call that puts a value. -/
def put : Value → Option (List Section)
  | .int x _ => XDRStreamMarshaller.putInt lib x
  | .scalar t cell => XDRStreamMarshaller.putScalar lib t cell
  | .str s _ => XDRStreamMarshaller.putStr lib s
  | .block data => XDRStreamMarshaller.putOpaque data
  | .bytes val _ _ => XDRStreamMarshaller.putVectorByte lib val
  | .vector t cells _ _ => XDRStreamMarshaller.putVector lib t cells

open XDRStreamUnMarshaller in
/-- The calls that get one, where a vector must have the number of elements asked for. -/
def get : Request → Reader → Option (Answer × Reader)
  | .int, u => (getInt lib u).map fun r => (.int r.1, r.2)
  | .scalar t, u => (getScalar lib t u).map fun r => (.memory r.1, r.2)
  | .str, u => (getStr lib u).map fun r => (.memory r.1, r.2)
  | .block len, u => (getOpaque len u).map fun r => (.memory r.1, r.2)
  | .bytes num, u => do
      let (n, u) ← getInt lib u
      if n ≠ num then none
      else (getVectorByte lib (List.replicate num 0) u).map fun r => (.vector r.1.1 r.1.2, r.2)
  | .vector t num, u => do
      let (n, u) ← getInt lib u
      if n ≠ num then none
      else (getVector lib t (List.replicate (num * t.width) 0) u).map fun r =>
        (.vector r.1.1 r.1.2, r.2)

/-- Values put through the child threads and got back. -/
def coding : Coding UInt8 Value Request Answer XDRStreamUnMarshaller.Reader where
  put v := (put lib v).bind emit
  request := Value.request
  result := Value.answer
  get := get lib
  At := XDRStreamUnMarshaller.At

variable {lib}

open XDRStreamUnMarshaller

/-- A call that goes through these sections puts what they leave. -/
theorem coding_put {v : Value} {sections : List Section} (returns : put lib v = some sections) :
    (coding lib).put v = emit sections := by
  simp only [coding, returns, Option.bind_some]

theorem int_exact {x : Int} (fits : FitsI32 x) : (coding lib).Exact (.int x fits) := by
  refine ⟨lib.int x, ?_, ?_⟩
  · rw [@coding_put lib (.int x fits) _ (XDRStreamMarshaller.putInt_eq x), emit_write]
  · intro u rest place
    obtain ⟨w, got, placed, -⟩ := getInt_spec fits place
    exact ⟨w, by simp only [coding, Value.request, Value.answer, get, got, Option.map_some], placed⟩

theorem scalar_exact (t : Scalar) (cell : Cell t) : (coding lib).Exact (.scalar t cell) := by
  refine ⟨lib.coder t cell.octets, ?_, ?_⟩
  · rw [@coding_put lib (.scalar t cell) _ (XDRStreamMarshaller.putScalar_eq t cell), emit_write]
  · intro u rest place
    obtain ⟨w, got, placed⟩ := getScalar_spec cell.length place
    exact ⟨w, by simp only [coding, Value.request, Value.answer, get, got, Option.map_some], placed⟩

/-- A string is put as the count and the padded characters. -/
theorem put_str {s : List UInt8} {nulFree : ∀ b ∈ s, b ≠ 0} {sections : List Section}
    (returns : put lib (.str s nulFree) = some sections) :
    s.length + 8 < 2 ^ 31 ∧
      (coding lib).put (.str s nulFree) = some (lib.int s.length ++ xdrOpaque s) := by
  obtain ⟨small, rfl⟩ := XDRStreamMarshaller.of_putStr nulFree returns
  exact ⟨small, by rw [coding_put returns, emit_write, lib.uInt_eq_int (by omega)]⟩

theorem str_exact {s : List UInt8} {nulFree : ∀ b ∈ s, b ≠ 0} {sections : List Section}
    (returns : put lib (.str s nulFree) = some sections) (good : (Value.str s nulFree).Good) :
    (coding lib).Exact (.str s nulFree) := by
  obtain ⟨-, putStr⟩ := put_str returns
  refine ⟨_, putStr, ?_⟩
  intro u rest place
  rw [List.append_assoc] at place
  obtain ⟨w, got, placed⟩ := getStr_spec good nulFree place
  exact ⟨w, by simp only [coding, Value.request, Value.answer, get, got, Option.map_some], placed⟩

theorem str_astray {s : List UInt8} {nulFree : ∀ b ∈ s, b ≠ 0} {sections : List Section}
    (returns : put lib (.str s nulFree) = some sections) (bad : ¬(Value.str s nulFree).Good) :
    (coding lib).Astray (.str s nulFree) := by
  obtain ⟨small, putStr⟩ := put_str returns
  intro bytes same
  obtain rfl := Option.some.inj (putStr.symm.trans same)
  refine ⟨[], fun u place t result => ?_⟩
  rw [List.append_assoc] at place
  simp only [coding, Value.request, get, getStr_long small (Nat.lt_of_not_le bad) place,
    Option.map_none, reduceCtorEq] at result

theorem put_block {data : List UInt8} {sections : List Section}
    (returns : put lib (.block data) = some sections) :
    data.length ≤ 256 ∧ (coding lib).put (.block data) = some (xdrOpaque data) := by
  obtain ⟨short, rfl⟩ := XDRStreamMarshaller.of_putOpaque returns
  exact ⟨short, by rw [coding_put returns, emit_write]⟩

theorem block_exact {data : List UInt8} {sections : List Section}
    (returns : put lib (.block data) = some sections) (good : (Value.block data).Good) :
    (coding lib).Exact (.block data) := by
  obtain ⟨short, putBlock⟩ := put_block returns
  refine ⟨_, putBlock, ?_⟩
  intro u rest place
  obtain ⟨w, got, placed⟩ := getOpaque_spec good short place
  exact ⟨w, by simp only [coding, Value.request, Value.answer, get, got, Option.map_some], placed⟩

theorem block_astray {data : List UInt8} {sections : List Section}
    (returns : put lib (.block data) = some sections) (bad : ¬(Value.block data).Good) :
    (coding lib).Astray (.block data) := by
  obtain ⟨short, -⟩ := put_block returns
  intro bytes _
  refine ⟨[], fun u _ t result => ?_⟩
  simp only [coding, Value.request, get, getOpaque_ragged bad short, Option.map_none,
    reduceCtorEq] at result

/-- A vector is asked for after its number of elements. -/
theorem get_bytes {n : Nat} {rest : List UInt8} {u : Reader} (small : n < 2 ^ 31)
    (place : At u (lib.int n ++ rest)) :
    ∃ v, get lib (.bytes n) u = ((getVectorByte lib (List.replicate n 0) v).map fun r =>
      (.vector r.1.1 r.1.2, r.2)) ∧ At v rest := by
  obtain ⟨v, got, placed, -⟩ := getInt_spec ⟨by omega, by omega⟩ place
  exact ⟨v, by simp [get, got], placed⟩

theorem get_vector {t : Scalar} {n : Nat} {rest : List UInt8} {u : Reader} (small : n < 2 ^ 31)
    (place : At u (lib.int n ++ rest)) :
    ∃ v, get lib (.vector t n) u = ((getVector lib t (List.replicate (n * t.width) 0) v).map fun r =>
      (.vector r.1.1 r.1.2, r.2)) ∧ At v rest := by
  obtain ⟨v, got, placed, -⟩ := getInt_spec ⟨by omega, by omega⟩ place
  exact ⟨v, by simp [get, got], placed⟩

/-- Octets are put unless the child takes their number for a negative one. -/
theorem put_bytes {val bytes : List UInt8} {some_ : val ≠ []} {int : val.length < 2 ^ 31}
    (emits : (coding lib).put (.bytes val some_ int) = some bytes) :
    4 + val.length + pad val.length < 2 ^ 31 ∧
      bytes = lib.int val.length ++ (lib.int val.length ++ xdrOpaque val) := by
  have padded := pad_lt val.length
  rw [@coding_put lib (.bytes val some_ int) _ (XDRStreamMarshaller.putVectorByte_eq lib val)] at emits
  by_cases small : 4 + val.length + pad val.length < 2 ^ 31
  · rw [emit_write_handOver small, lib.uInt_eq_int int, List.take_of_length_le (by simp; omega)] at emits
    exact ⟨small, (Option.some.inj emits).symm⟩
  · rw [emit_eq_none (List.mem_cons_of_mem _ List.mem_cons_self) rfl (Nat.le_of_not_lt small)
      (by omega)] at emits
    cases emits

theorem bytes_exact {val : List UInt8} {some_ : val ≠ []} {int : val.length < 2 ^ 31}
    (good : (Value.bytes val some_ int).Good) : (coding lib).Exact (.bytes val some_ int) := by
  obtain ⟨even, fits⟩ := good
  have padded := pad_lt val.length
  have emits : (coding lib).put (.bytes val some_ int) =
      some (lib.int val.length ++ (lib.int val.length ++ xdrOpaque val)) := by
    rw [@coding_put lib (.bytes val some_ int) _ (XDRStreamMarshaller.putVectorByte_eq lib val),
      emit_write_handOver (by simp only [Keeps]; omega), lib.uInt_eq_int int,
      List.take_of_length_le (by simp; omega)]
  refine ⟨_, emits, ?_⟩
  intro u rest place
  rw [List.append_assoc, List.append_assoc] at place
  obtain ⟨v, asked, after⟩ := get_bytes int place
  obtain ⟨w, got, placed⟩ := getVectorByte_spec even fits after
  exact ⟨w, by simp only [coding, Value.request, Value.answer, asked, got, Option.map_some], placed⟩

theorem bytes_astray {val : List UInt8} {some_ : val ≠ []} {int : val.length < 2 ^ 31}
    (bad : ¬(Value.bytes val some_ int).Good) : (coding lib).Astray (.bytes val some_ int) := by
  intro bytes emits
  obtain ⟨small, rfl⟩ := put_bytes emits
  refine ⟨[], fun u place t result => ?_⟩
  change At u _ at place
  rw [List.append_assoc, List.append_assoc] at place
  obtain ⟨v, asked, after⟩ := get_bytes int place
  simp only [coding, Value.request, Value.answer, asked, Option.map_eq_some_iff, Prod.mk.injEq,
    Answer.vector.injEq] at result
  obtain ⟨r, got, ⟨count, -⟩, rfl⟩ := result
  by_cases long : xdrDapBuffSize < val.length + val.length % 4 + 4
  · simp only [pad] at small
    have fewer := getVectorByte_long (by omega) long after got
    omega
  · have fits := Nat.le_of_not_lt long
    exact getVectorByte_odd (fun even => bad ⟨even, fits⟩) fits after got

theorem put_vector {t : Scalar} {cells : List (Cell t)} {some_ : cells ≠ []}
    {unsigned : cells.length < 2 ^ 32} {sections : List Section}
    (returns : put lib (.vector t cells some_ unsigned) = some sections) :
    t ≠ .byte ∧ cells.length * t.units + 4 < 2 ^ 31 ∧
      (coding lib).put (.vector t cells some_ unsigned) = some (lib.int cells.length ++
        (lib.int cells.length ++ cells.flatMap fun cell => lib.coder t cell.octets)) := by
  obtain ⟨number, small⟩ := XDRStreamMarshaller.of_putVector some_ returns
  have few := le_mul_units t cells.length
  refine ⟨number, small, ?_⟩
  rw [@coding_put lib (.vector t cells some_ unsigned) _
      (XDRStreamMarshaller.putVector_eq some_ number small),
    emit_write_handOver small, ← XDRStreamMarshaller.length_encoding lib, List.take_length,
    XDRStreamMarshaller.encoding, lib.uInt_eq_int (by omega)]

theorem vector_exact {t : Scalar} {cells : List (Cell t)} {some_ : cells ≠ []}
    {unsigned : cells.length < 2 ^ 32} {sections : List Section}
    (returns : put lib (.vector t cells some_ unsigned) = some sections)
    (good : (Value.vector t cells some_ unsigned).Good) :
    (coding lib).Exact (.vector t cells some_ unsigned) := by
  obtain ⟨number, small, emits⟩ := put_vector returns
  have few := le_mul_units t cells.length
  refine ⟨_, emits, ?_⟩
  intro u rest place
  rw [List.append_assoc, List.append_assoc] at place
  obtain ⟨v, asked, after⟩ := get_vector (t := t) (by omega) place
  obtain ⟨w, got, placed⟩ := getVector_spec number small good.1 good.2 after
  exact ⟨w, by simp only [coding, Value.request, Value.answer, asked, got, Option.map_some], placed⟩

theorem vector_astray {t : Scalar} {cells : List (Cell t)} {some_ : cells ≠ []}
    {unsigned : cells.length < 2 ^ 32} {sections : List Section}
    (returns : put lib (.vector t cells some_ unsigned) = some sections)
    (bad : ¬(Value.vector t cells some_ unsigned).Good) :
    (coding lib).Astray (.vector t cells some_ unsigned) := by
  obtain ⟨number, small, emits⟩ := put_vector returns
  have few := le_mul_units t cells.length
  have one := List.length_pos_iff.mpr some_
  intro bytes same
  obtain rfl := Option.some.inj (emits.symm.trans same)
  refine ⟨[], fun u place w result => ?_⟩
  change At u _ at place
  rw [List.append_assoc, List.append_assoc] at place
  obtain ⟨v, asked, after⟩ := get_vector (t := t) (by omega) place
  have none : getVector lib t (List.replicate (cells.length * t.width) 0) v = none := by
    by_cases full : cells.length * t.units = xdrDapBuffSize
    · exact getVector_full number full after
    · obtain ⟨narrow, several⟩ : t.width = 2 ∧ cells.length ≠ 1 := by
        simpa [Value.Good, xdrDapBuffSize, show cells.length * t.units ≠ 4096 from full] using bad
      exact getVector_narrow number small full narrow (by omega) after
  simp only [coding, Value.request, asked, none, Option.map_none, reduceCtorEq] at result

/-- There is a reader before any octets. -/
theorem opens (input : List UInt8) : ∃ u, (coding lib).At u input :=
  ⟨⟨⟨input, false⟩, List.replicate xdrDapBuffSize 0, List.length_replicate ..⟩, rfl⟩

/-- A value that is put comes back if its lengths are good. -/
theorem exact_of_good {v : Value} {sections : List Section} (returned : put lib v = some sections)
    (good : v.Good) : (coding lib).Exact v := by
  cases v with
  | int x fits => exact int_exact fits
  | scalar t cell => exact scalar_exact t cell
  | str s nulFree => exact str_exact returned good
  | block data => exact block_exact returned good
  | bytes val some_ int => exact bytes_exact good
  | vector t cells some_ unsigned => exact vector_exact returned good

theorem astray_of_bad {v : Value} {sections : List Section} (returned : put lib v = some sections)
    (bad : ¬v.Good) : (coding lib).Astray v := by
  cases v with
  | int x fits => exact absurd trivial bad
  | scalar t cell => exact absurd trivial bad
  | str s nulFree => exact str_astray returned bad
  | block data => exact block_astray returned bad
  | bytes val some_ int => exact bytes_astray bad
  | vector t cells some_ unsigned => exact vector_astray returned bad

/-- Values come back one by one, each from where the one before it ends, if and only if
    the lengths of all of them are good. -/
theorem comesBack_iff (lib : Library) (vs : List Value)
    (returns : ∀ v ∈ vs, ∃ sections, put lib v = some sections) :
    (∀ us, us <+: vs → (coding lib).RoundTrips us) ↔ ∀ v ∈ vs, v.Good := by
  apply Coding.roundTrips_iff opens
  · intro v mem good
    obtain ⟨sections, returned⟩ := returns v mem
    exact exact_of_good returned good
  · intro v mem bad
    obtain ⟨sections, returned⟩ := returns v mem
    exact astray_of_bad returned bad

/-- Two octets, a number of four octets and an `int` come back. -/
theorem comesBack_three :
    (coding (standard .little)).RoundTrips [.bytes [1, 2] (by simp) (by simp),
      .vector .int32 [⟨[1, 0, 0, 0], rfl⟩] (by simp) (by simp), .int 5 (by decide)] :=
  (comesBack_iff (standard .little) _ (by
    simp only [List.forall_mem_cons, List.not_mem_nil, false_imp_iff, implies_true, and_true]
    exact ⟨⟨_, XDRStreamMarshaller.putVectorByte_eq _ _⟩,
      ⟨_, XDRStreamMarshaller.putVector_eq (by simp) (by simp) (by simp [Scalar.units])⟩,
      ⟨_, XDRStreamMarshaller.putInt_eq _⟩⟩)).mpr
    (by simp [Value.Good, Scalar.units, Scalar.width]) _ List.prefix_rfl

/-- A vector of one octet does not: the reader stops two octets before its end. -/
theorem oneOctet_astray : ¬∀ vs : List Value,
    (∀ v ∈ vs, ∃ sections, put (standard .little) v = some sections) →
      (coding (standard .little)).RoundTrips vs := by
  intro claim
  have returns : ∀ v ∈ [Value.bytes [7] (by simp) (by simp)],
      ∃ sections, put (standard .little) v = some sections := by
    intro v mem
    cases List.mem_singleton.mp mem
    exact ⟨_, XDRStreamMarshaller.putVectorByte_eq _ _⟩
  have odd : ¬(Value.bytes [7] (by simp) (by simp)).Good := by simp [Value.Good]
  exact Coding.not_roundTrips_snoc opens Coding.roundTrips_nil (bytes_astray odd) (claim _ returns)

end Libdap.Marshal.XdrRoundTrip
