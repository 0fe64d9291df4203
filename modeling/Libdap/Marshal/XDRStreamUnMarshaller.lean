import Libdap.Foundation.InStream
import Libdap.Marshal.Xdr
import Mathlib.Data.List.TakeWhile

/-! # XDRStreamUnMarshaller

The `get_` methods read the octets of a value into a buffer of fixed size, or into new
memory when they are too many, and decode them there. A method that reads or decodes
past the end of its memory gives no result here, as one that throws.
-/

namespace Libdap.Marshal.XDRStreamUnMarshaller

open Ints Xdr

def xdrDapBuffSize : Nat := 4096

/-- `max_str_len`. -/
def maxStrLen : Nat := 65534

/-- `DODS_MAX_ARRAY`. -/
def dodsMaxArray : Nat := 2 ^ 31 - 1

/-- The stream and `d_buf`, which `d_source` decodes from. -/
structure Reader where
  dIn : InStream UInt8
  dBuf : List UInt8
  length_dBuf : dBuf.length = xdrDapBuffSize

/-- Put what a read has delivered into `d_buf`. -/
def deliver (u : Reader) (offset : Nat) (got : List UInt8 × InStream UInt8) : Option Reader :=
  match ok : store u.dBuf offset got.1 with
  | none => none
  | some dBuf => some ⟨got.2, dBuf, (length_store ok).trans u.length_dBuf⟩

/-- Read `n` octets into `d_buf` from `offset` on. A negative number fails the stream. -/
def readInto (u : Reader) (offset : Nat) (n : Int) : Option Reader :=
  if n < 0 then some { u with dIn := ⟨u.dIn.rest, true⟩ }
  else deliver u offset (u.dIn.read n.toNat)

/-- Read `n` octets into new memory, behind the four octets of the count in `d_buf`. -/
def readHeap (u : Reader) (n : Int) : Option (List UInt8 × Reader) :=
  if i32 (n + 4) < 0 then none
  else
    let got := u.dIn.read n.toNat
    some (u.dBuf.take 4 ++ (got.1 ++ List.replicate (n.toNat - got.1.length) 0),
      { u with dIn := got.2 })

/-- Read `n` octets behind the count, with the memory where they can be decoded. -/
def gather (heap : Bool) (u : Reader) (n : Int) : Option (List UInt8 × Reader) :=
  if heap then readHeap u n else (readInto u 4 n).map fun v => (v.dBuf, v)

variable (lib : Library)

/-- Read the octets of a scalar and decode them. -/
def getEncoded (t : Scalar) (u : Reader) : Option (List UInt8 × Reader) := do
  let u ← readInto u 0 t.units
  return (lib.coderOf t (u.dBuf.take t.units), u)

/-- `get_byte`, which alone looks at the stream after the read. -/
def getByte (u : Reader) : Option (List UInt8 × Reader) := do
  let u ← readInto u 0 4
  if u.dIn.eof then none else return (lib.coderOf .byte (u.dBuf.take 4), u)

def getInt16 := getEncoded lib .int16

def getInt32 := getEncoded lib .int32

def getFloat32 := getEncoded lib .float32

def getFloat64 := getEncoded lib .float64

def getUInt16 := getEncoded lib .uint16

def getUInt32 := getEncoded lib .uint32

/-- The method for a scalar of a type. -/
def getScalar : Scalar → Reader → Option (List UInt8 × Reader)
  | .byte => getByte lib
  | .int16 => getInt16 lib
  | .uint16 => getUInt16 lib
  | .int32 => getInt32 lib
  | .uint32 => getUInt32 lib
  | .float32 => getFloat32 lib
  | .float64 => getFloat64 lib

def getInt (u : Reader) : Option (Int × Reader) := do
  let u ← readInto u 0 4
  return (lib.intOf (u.dBuf.take 4), u)

def getStr (u : Reader) : Option (List UInt8 × Reader) := do
  let (n, u) ← getInt lib u
  let i := i32 (Int.tdiv (i32 (n + 3)) 4 * 4)
  let (buf, u) ← gather (decide (xdrDapBuffSize < i32 (i + 4))) u i
  let val ← xdrStringOf lib maxStrLen buf
  return (val, u)

/-- `get_opaque`. What is rounded up is `len += len & 3`, and as many octets are stored in
    the caller's memory. -/
def getOpaque (len : Nat) (u : Reader) : Option (List UInt8 × Reader) :=
  let rounded : Nat := (len + len % 4) % 2 ^ 32
  if xdrDapBuffSize < i32 rounded then none
  else do
    let u ← readInto u 0 rounded
    let val ← xdrOpaqueOf rounded u.dBuf
    let stored ← store (List.replicate len 0) 0 val
    return (stored, u)

/-- `get_vector` for octets. When they go to new memory, `d_source` is decoded all the
    same, from where `get_int` has left it. -/
def getVectorByte (mem : List UInt8) (u : Reader) : Option ((Nat × List UInt8) × Reader) := do
  let (n, u) ← getInt lib u
  let i := i32 (n + n % 4)
  if xdrDapBuffSize < i32 (i + 4) then
    let (_, u) ← readHeap u i
    let val ← xdrBytesOf lib dodsMaxArray (u.dBuf.drop 4)
    let stored ← store mem 0 val
    return ((val.length, stored), u)
  else
    let u ← readInto u 4 i
    let val ← xdrBytesOf lib dodsMaxArray u.dBuf
    let stored ← store mem 0 val
    return ((val.length, stored), u)

/-- `get_vector` for numbers. What is rounded up is `width += width & 3`. -/
def getVector (t : Scalar) (mem : List UInt8) (u : Reader) :
    Option ((Nat × List UInt8) × Reader) := do
  let (n, u) ← getInt lib u
  let width := t.width + t.width % 4
  let size := i32 (n * width)
  let (buf, u) ← gather (decide (xdrDapBuffSize < size)) u size
  if t = .byte then none
  let result ← xdrArrayOf lib t dodsMaxArray width mem buf
  return (result, u)

variable {lib}

/-- The reader has these octets before it. -/
def At (u : Reader) (bytes : List UInt8) : Prop := u.dIn = ⟨bytes, false⟩

theorem at_read {u : Reader} {xs rest : List UInt8} (place : At u (xs ++ rest)) :
    u.dIn.read xs.length = (xs, ⟨rest, false⟩) := by
  rw [show u.dIn = _ from place]
  exact InStream.read_append

theorem deliver_eq {u : Reader} {offset : Nat} {got : List UInt8 × InStream UInt8}
    (fits : offset + got.1.length ≤ xdrDapBuffSize) :
    ∃ v, deliver u offset got = some v ∧ v.dIn = got.2 ∧
      v.dBuf = u.dBuf.take offset ++ (got.1 ++ u.dBuf.drop (offset + got.1.length)) := by
  have stored : store u.dBuf offset got.1 =
      some (u.dBuf.take offset ++ (got.1 ++ u.dBuf.drop (offset + got.1.length))) := by
    rw [store, if_neg (by rw [u.length_dBuf]; omega), List.append_assoc]
  unfold deliver
  split
  · rename_i none
    rw [stored] at none
    cases none
  · rename_i dBuf some_
    rw [stored] at some_
    cases some_
    exact ⟨_, rfl, rfl, rfl⟩

theorem deliver_overrun {u : Reader} {offset : Nat} {got : List UInt8 × InStream UInt8}
    (overrun : xdrDapBuffSize < offset + got.1.length) : deliver u offset got = none := by
  unfold deliver
  split
  · rfl
  · rename_i dBuf some_
    rw [store, if_pos (by rw [u.length_dBuf]; omega)] at some_
    cases some_

/-- Octets that are there and that fit are read into `d_buf`. -/
theorem readInto_spec {u : Reader} (offset : Nat) {xs rest : List UInt8}
    (place : At u (xs ++ rest)) (fits : offset + xs.length ≤ xdrDapBuffSize) :
    ∃ v, readInto u offset xs.length = some v ∧ At v rest ∧
      v.dBuf = u.dBuf.take offset ++ (xs ++ u.dBuf.drop (offset + xs.length)) := by
  rw [readInto, if_neg (by omega), Int.toNat_natCast, at_read place]
  exact deliver_eq fits

/-- A read that would pass the end of `d_buf` has no result. -/
theorem readInto_overrun {u : Reader} (offset : Nat) {xs rest : List UInt8}
    (place : At u (xs ++ rest)) (overrun : xdrDapBuffSize < offset + xs.length) :
    readInto u offset xs.length = none := by
  rw [readInto, if_neg (by omega), Int.toNat_natCast, at_read place]
  exact deliver_overrun overrun

theorem getEncoded_spec {t : Scalar} {m rest : List UInt8} {u : Reader} (length : m.length = t.width)
    (place : At u (lib.coder t m ++ rest)) :
    ∃ v, readInto u 0 t.units = some v ∧ At v rest ∧ lib.coderOf t (v.dBuf.take t.units) = m := by
  have encoded := lib.length_coder length
  obtain ⟨v, ok, placed, buf⟩ := readInto_spec 0 place
    (by rw [encoded]; cases t <;> decide)
  rw [encoded] at ok
  refine ⟨v, ok, placed, ?_⟩
  rw [buf, List.take_zero, List.nil_append, List.take_left' encoded, lib.coderOf_coder length]

theorem getScalar_spec {t : Scalar} {m rest : List UInt8} {u : Reader} (length : m.length = t.width)
    (place : At u (lib.coder t m ++ rest)) :
    ∃ v, getScalar lib t u = some (m, v) ∧ At v rest := by
  obtain ⟨v, ok, placed, value⟩ := getEncoded_spec length place
  have good : v.dIn.eof = false := by rw [show v.dIn = _ from placed]
  have other : getEncoded lib t u = some (m, v) := by rw [getEncoded, ok, Option.bind_eq_bind, Option.bind_some, value]; rfl
  refine ⟨v, ?_, placed⟩
  cases t with
  | byte =>
      have first : readInto u 0 4 = some v := ok
      have decoded : lib.coderOf .byte (v.dBuf.take 4) = m := value
      simp [getScalar, getByte, first, good, decoded]
  | _ => exact other

/-- `get_int` leaves the octets of the integer at the start of `d_buf`. -/
theorem getInt_spec {x : Int} {rest : List UInt8} {u : Reader} (fits : FitsI32 x)
    (place : At u (lib.int x ++ rest)) :
    ∃ v, getInt lib u = some (x, v) ∧ At v rest ∧ v.dBuf.take 4 = lib.int x := by
  obtain ⟨v, ok, placed, buf⟩ := readInto_spec 0 place (by simp [xdrDapBuffSize])
  have taken : v.dBuf.take 4 = lib.int x := by
    rw [buf, List.take_zero, List.nil_append, List.take_left' (lib.length_int x)]
  rw [lib.length_int] at ok
  have first : readInto u 0 4 = some v := ok
  exact ⟨v, by simp [getInt, first, taken, lib.intOf_int fits], placed, taken⟩

/-- Octets that fit where they go are found behind the count. -/
theorem gather_spec (heap : Bool) {u : Reader} {xs rest : List UInt8} (place : At u (xs ++ rest))
    (fits : heap = false → xs.length + 4 ≤ xdrDapBuffSize) (small : xs.length + 4 < 2 ^ 31) :
    ∃ buf v more, gather heap u xs.length = some (buf, v) ∧ At v rest ∧
      buf = u.dBuf.take 4 ++ (xs ++ more) := by
  cases heap with
  | true =>
      have natural : ¬i32 ((xs.length : Int) + 4) < 0 := by
        rw [← Nat.cast_ofNat, ← Nat.cast_add, i32_ofNat_of_lt small]
        omega
      refine ⟨_, { u with dIn := ⟨rest, false⟩ }, [], ?_, rfl, rfl⟩
      simp [gather, readHeap, natural, at_read place]
  | false =>
      obtain ⟨v, ok, placed, buf⟩ := readInto_spec 4 place (by have := fits rfl; omega)
      exact ⟨_, v, _, by simp [gather, ok], placed, buf⟩

/-- What is decoded starts with the count that was read. -/
theorem gather_take {heap : Bool} {u v : Reader} {xs rest buf : List UInt8}
    (place : At u (xs ++ rest)) (ok : gather heap u xs.length = some (buf, v)) :
    ∃ more, buf = u.dBuf.take 4 ++ more := by
  cases heap with
  | true =>
      simp only [gather, readHeap, if_true] at ok
      split at ok
      · cases ok
      · cases ok
        exact ⟨_, rfl⟩
  | false =>
      have fits : 4 + xs.length ≤ xdrDapBuffSize := by
        by_contra overrun
        simp [gather, readInto_overrun 4 place (Nat.lt_of_not_le overrun)] at ok
      obtain ⟨v', read, -, same⟩ := readInto_spec 4 place fits
      simp only [gather, read] at ok
      cases ok
      exact ⟨_, same⟩

/-- A reader that is left in a good state has taken as many octets as it asked for. -/
theorem length_of_readInto {u v : Reader} {offset : Nat} {n : Int} {xs rest : List UInt8}
    (natural : 0 ≤ n) (place : At u xs) (ok : readInto u offset n = some v) (placed : At v rest) :
    (xs.length : Int) = rest.length + n := by
  rw [readInto, if_neg (Int.not_lt.mpr natural)] at ok
  unfold deliver at ok
  split at ok
  · cases ok
  · cases ok
    have length := InStream.length_of_read_good (congrArg InStream.eof placed)
    have left := congrArg (fun s => s.rest.length) placed
    have before := congrArg (fun s => s.rest.length) place
    simp only at left before
    omega

/-! ## Strings -/

/-- What is rounded up for a string is the length of its characters and their padding. -/
theorem roundUp_eq {n : Nat} (small : n + 8 < 2 ^ 31) :
    i32 (Int.tdiv (i32 ((n : Int) + 3)) 4 * 4) = (n + pad n : Nat) := by
  have inner : i32 ((n : Int) + 3) = (n + 3 : Nat) := by
    rw [← i32_ofNat_of_lt (n := n + 3) (by omega)]
    rfl
  have rounded : (n + 3) / 4 * 4 = n + pad n := by
    unfold pad
    omega
  rw [inner, ← rounded, ← i32_ofNat_of_lt (n := (n + 3) / 4 * 4) (by omega)]
  rfl

theorem add_four {n : Nat} (small : n + 4 < 2 ^ 31) : i32 ((n : Int) + 4) = (n + 4 : Nat) :=
  i32_ofNat_of_lt (n := n + 4) small

variable {s rest : List UInt8} {u : Reader}

/-- The octets of a string are gathered behind its length. -/
theorem gatherStr (small : s.length + 8 < 2 ^ 31)
    (place : At u (lib.int s.length ++ (xdrOpaque s ++ rest))) :
    ∃ v w more, getInt lib u = some ((s.length : Int), v) ∧
      gather (decide (xdrDapBuffSize < i32 (((s.length + pad s.length : Nat) : Int) + 4))) v
        (s.length + pad s.length : Nat) = some (lib.uInt s.length ++ (xdrOpaque s ++ more), w) ∧
      At w rest := by
  have padded := pad_lt s.length
  obtain ⟨v, got, placed, count⟩ := getInt_spec ⟨by omega, by omega⟩ place
  obtain ⟨buf, w, more, ok, after, same⟩ := gather_spec (decide (xdrDapBuffSize <
    i32 (((s.length + pad s.length : Nat) : Int) + 4))) placed (by
      rw [add_four (by omega), length_xdrOpaque, decide_eq_false_iff_not]
      omega) (by rw [length_xdrOpaque]; omega)
  rw [length_xdrOpaque, same, count, ← lib.uInt_eq_int (by omega)] at ok
  exact ⟨v, w, more, got, ok, after⟩

theorem getStr_of {v w : Reader} {n i : Int} {buf : List UInt8} (got : getInt lib u = some (n, v))
    (rounded : i32 (Int.tdiv (i32 (n + 3)) 4 * 4) = i)
    (ok : gather (decide (xdrDapBuffSize < i32 (i + 4))) v i = some (buf, w)) :
    getStr lib u = (xdrStringOf lib maxStrLen buf).map fun val => (val, w) := by
  simp only [getStr, got, Option.bind_eq_bind, Option.bind_some, rounded, ok]
  cases xdrStringOf lib maxStrLen buf <;> rfl

/-- What is got as a string has no NUL in it. -/
theorem nulFree_of_getStr {u w : Reader} {s : List UInt8} (got : getStr lib u = some (s, w)) :
    ∀ b ∈ s, b ≠ 0 := by
  simp only [getStr, xdrStringOf, Option.bind_eq_bind, Option.bind_eq_some_iff, Option.map_eq_some_iff,
    Option.pure_def, Option.some.injEq, Prod.mk.injEq] at got
  obtain ⟨-, -, -, -, val, ⟨whole, -, rfl⟩, rfl, -⟩ := got
  intro b mem
  simpa using List.mem_takeWhile_imp mem

theorem getStr_spec (short : s.length ≤ maxStrLen) (nulFree : ∀ b ∈ s, b ≠ 0)
    (place : At u (lib.int s.length ++ (xdrOpaque s ++ rest))) :
    ∃ v, getStr lib u = some (s, v) ∧ At v rest := by
  have small : s.length + 8 < 2 ^ 31 := by simp only [maxStrLen] at short; omega
  obtain ⟨v, w, more, got, ok, after⟩ := gatherStr small place
  have whole : s.takeWhile (· != 0) = s := by
    simpa [List.takeWhile_eq_self_iff] using nulFree
  have decoded : xdrStringOf lib maxStrLen (lib.uInt s.length ++ (xdrOpaque s ++ more)) = some s := by
    rw [xdrStringOf, xdrBytesOf_of_le (by omega) short, xdrOpaqueOf_xdrOpaque, Option.map_some, whole]
  exact ⟨w, by rw [getStr_of got (roundUp_eq small) ok, decoded, Option.map_some], after⟩

theorem getStr_long (small : s.length + 8 < 2 ^ 31) (long : maxStrLen < s.length)
    (place : At u (lib.int s.length ++ (xdrOpaque s ++ rest))) : getStr lib u = none := by
  obtain ⟨v, w, more, got, ok, -⟩ := gatherStr small place
  have decoded : xdrStringOf lib maxStrLen (lib.uInt s.length ++ (xdrOpaque s ++ more)) = none := by
    rw [xdrStringOf, xdrBytesOf_of_lt (by omega) long]
    rfl
  rw [getStr_of got (roundUp_eq small) ok, decoded, Option.map_none]

/-! ## Opaque data -/

theorem store_all {mem m : List UInt8} (room : mem.length = m.length) :
    store mem 0 m = some m := by
  rw [store, if_neg (by omega), List.take_zero, List.nil_append, List.drop_of_length_le (by omega),
    List.append_nil]

theorem store_overrun {mem m : List UInt8} (overrun : mem.length < m.length) :
    store mem 0 m = none := by
  rw [store, if_pos (by omega)]

/-- What `get_opaque` stores, when the rounded length is one that `d_buf` has room for. -/
theorem getOpaque_of {rounded : Nat} {v : Reader} {len : Nat}
    (small : (len + len % 4) % 2 ^ 32 = rounded) (fits : rounded ≤ xdrDapBuffSize)
    (ok : readInto u 0 rounded = some v) :
    getOpaque len u = (store (List.replicate len 0) 0 (v.dBuf.take rounded)).map fun m => (m, v) := by
  have whole : xdrOpaqueOf rounded v.dBuf = some (v.dBuf.take rounded) := by
    rw [xdrOpaqueOf, if_neg]
    rw [v.length_dBuf]
    simp only [pad, xdrDapBuffSize] at fits ⊢
    omega
  have notLarger : ¬(xdrDapBuffSize : Int) < i32 rounded := by
    simp only [xdrDapBuffSize] at fits ⊢
    rw [i32_ofNat_of_lt (by omega)]
    omega
  unfold getOpaque
  simp only [small, if_neg notLarger, ok, Option.bind_eq_bind, Option.bind_some, whole]
  cases store (List.replicate len 0) 0 (v.dBuf.take rounded) <;> rfl

theorem getOpaque_spec (whole : s.length % 4 = 0) (short : s.length ≤ 256)
    (place : At u (xdrOpaque s ++ rest)) : ∃ v, getOpaque s.length u = some (s, v) ∧ At v rest := by
  have unpadded : xdrOpaque s = s := by simp [xdrOpaque, pad, whole]
  rw [unpadded] at place
  obtain ⟨v, ok, placed, buf⟩ := readInto_spec 0 place (by simp only [xdrDapBuffSize]; omega)
  have taken : v.dBuf.take s.length = s := by
    rw [buf, List.take_zero, List.nil_append, List.take_left]
  refine ⟨v, ?_, placed⟩
  rw [getOpaque_of (by omega) (by simp only [xdrDapBuffSize]; omega) ok, taken,
    store_all (List.length_replicate ..), Option.map_some]

/-- Up to a ragged length, more octets are stored than the caller has asked for. -/
theorem getOpaque_ragged {len : Nat} (ragged : len % 4 ≠ 0) (short : len ≤ 256) :
    getOpaque len u = none := by
  cases ok : readInto u 0 (len + len % 4 : Nat) with
  | none =>
      have small : (len + len % 4) % 2 ^ 32 = len + len % 4 := by omega
      simp only [getOpaque, small, ok]
      split <;> rfl
  | some v =>
      rw [getOpaque_of (by omega) (by simp only [xdrDapBuffSize]; omega) ok, store_overrun,
        Option.map_none]
      rw [List.length_replicate, List.length_take, v.length_dBuf]
      simp only [xdrDapBuffSize]
      omega

/-! ## Vectors of octets -/

theorem getVectorByte_of {mem : List UInt8} {v : Reader} {n i : Int}
    (got : getInt lib u = some (n, v)) (rounded : i32 (n + n % 4) = i)
    (fits : ¬(xdrDapBuffSize : Int) < i32 (i + 4)) :
    getVectorByte lib mem u = (readInto v 4 i).bind fun w =>
      (xdrBytesOf lib dodsMaxArray w.dBuf).bind fun val =>
        (store mem 0 val).map fun stored => ((val.length, stored), w) := by
  simp only [getVectorByte, got, Option.bind_eq_bind, Option.bind_some, rounded, if_neg fits]
  cases readInto v 4 i with
  | none => rfl
  | some w =>
      simp only [Option.bind_some]
      cases xdrBytesOf lib dodsMaxArray w.dBuf with
      | none => rfl
      | some val => simp only [Option.bind_some]; cases store mem 0 val <;> rfl

theorem getVectorByte_ofLong {mem : List UInt8} {v : Reader} {n i : Int}
    (got : getInt lib u = some (n, v)) (rounded : i32 (n + n % 4) = i)
    (long : (xdrDapBuffSize : Int) < i32 (i + 4)) :
    getVectorByte lib mem u = (readHeap v i).bind fun read =>
      (xdrBytesOf lib dodsMaxArray (read.2.dBuf.drop 4)).bind fun val =>
        (store mem 0 val).map fun stored => ((val.length, stored), read.2) := by
  simp only [getVectorByte, got, Option.bind_eq_bind, Option.bind_some, rounded, if_pos long]
  cases readHeap v i with
  | none => rfl
  | some read =>
      simp only [Option.bind_some]
      cases xdrBytesOf lib dodsMaxArray (read.2.dBuf.drop 4) with
      | none => rfl
      | some val => simp only [Option.bind_some]; cases store mem 0 val <;> rfl

theorem roundCount {n : Nat} (small : n + n % 4 + 4 < 2 ^ 31) :
    i32 ((n : Int) + (n : Int) % 4) = (n + n % 4 : Nat) := by
  rw [← i32_ofNat_of_lt (n := n + n % 4) (by omega)]
  rfl

theorem getVectorByte_spec (even : s.length % 2 = 0)
    (fits : s.length + s.length % 4 + 4 ≤ xdrDapBuffSize)
    (place : At u (lib.int s.length ++ (xdrOpaque s ++ rest))) :
    ∃ v, getVectorByte lib (List.replicate s.length 0) u = some ((s.length, s), v) ∧ At v rest := by
  have padded : s.length + s.length % 4 = (xdrOpaque s).length := by
    rw [length_xdrOpaque, pad]
    omega
  have short : s.length + s.length % 4 + 4 < 2 ^ 31 := by simp only [xdrDapBuffSize] at fits; omega
  obtain ⟨v, got, placed, count⟩ := getInt_spec ⟨by omega, by omega⟩ place
  obtain ⟨w, ok, after, buf⟩ := readInto_spec 4 placed (by omega)
  have decoded : xdrBytesOf lib dodsMaxArray w.dBuf = some s := by
    rw [buf, count, ← lib.uInt_eq_int (by omega), xdrBytesOf_of_le (by omega)
      (by simp only [dodsMaxArray]; omega), xdrOpaqueOf_xdrOpaque]
  rw [← padded] at ok
  have small : ¬(xdrDapBuffSize : Int) < i32 ((s.length + s.length % 4 : Nat) + 4) := by
    rw [add_four (by omega)]
    omega
  refine ⟨w, ?_, after⟩
  rw [getVectorByte_of got (roundCount short) small, ok, Option.bind_some, decoded, Option.bind_some,
    store_all (List.length_replicate ..), Option.map_some]

/-- An odd number is not rounded up to where the padding ends. -/
theorem getVectorByte_odd {mem : List UInt8} {r : Nat × List UInt8} {w : Reader}
    (odd : s.length % 2 ≠ 0) (fits : s.length + s.length % 4 + 4 ≤ xdrDapBuffSize)
    (place : At u (lib.int s.length ++ (xdrOpaque s ++ rest)))
    (result : getVectorByte lib mem u = some (r, w)) : ¬At w rest := by
  have short : s.length + s.length % 4 + 4 < 2 ^ 31 := by simp only [xdrDapBuffSize] at fits; omega
  obtain ⟨v, got, placed, -⟩ := getInt_spec ⟨by omega, by omega⟩ place
  have small : ¬(xdrDapBuffSize : Int) < i32 ((s.length + s.length % 4 : Nat) + 4) := by
    rw [add_four (by omega)]
    omega
  rw [getVectorByte_of got (roundCount short) small] at result
  obtain ⟨x, ok, decoded⟩ := Option.bind_eq_some_iff.mp result
  obtain ⟨val, -, stored⟩ := Option.bind_eq_some_iff.mp decoded
  obtain ⟨m, -, same⟩ := Option.map_eq_some_iff.mp stored
  cases same
  intro after
  have length := length_of_readInto (by omega) placed ok after
  rw [List.length_append, length_xdrOpaque, pad] at length
  omega

theorem length_of_xdrBytesOf {maxsize : Nat} {bs val : List UInt8}
    (ok : xdrBytesOf lib maxsize bs = some val) : val.length + 4 ≤ bs.length := by
  simp only [xdrBytesOf, xdrOpaqueOf] at ok
  split at ok
  · cases ok
  · split at ok
    · cases ok
    · split at ok
      · cases ok
      · cases ok
        simp_all
        omega

/-- Octets that go to new memory are not the ones that are decoded. -/
theorem getVectorByte_long {mem : List UInt8} {r : Nat × List UInt8} {w : Reader}
    (small : s.length + s.length % 4 + 4 < 2 ^ 31)
    (long : xdrDapBuffSize < s.length + s.length % 4 + 4)
    (place : At u (lib.int s.length ++ (xdrOpaque s ++ rest)))
    (result : getVectorByte lib mem u = some (r, w)) : r.1 < s.length := by
  obtain ⟨v, got, -, -⟩ := getInt_spec ⟨by omega, by omega⟩ place
  have heap : (xdrDapBuffSize : Int) < i32 ((s.length + s.length % 4 : Nat) + 4) := by
    rw [add_four (by omega)]
    omega
  rw [getVectorByte_ofLong got (roundCount small) heap] at result
  obtain ⟨read, -, rest⟩ := Option.bind_eq_some_iff.mp result
  obtain ⟨val, decoded, stored⟩ := Option.bind_eq_some_iff.mp rest
  obtain ⟨m, -, same⟩ := Option.map_eq_some_iff.mp stored
  cases same
  have length := length_of_xdrBytesOf decoded
  rw [List.length_drop, read.2.length_dBuf] at length
  simp only [xdrDapBuffSize] at length long
  omega

/-! ## Vectors of numbers -/

/-- The octets that are read for each element. -/
theorem stride_eq {t : Scalar} (number : t ≠ .byte) : t.width + t.width % 4 = t.units := by
  cases t with
  | byte => exact absurd rfl number
  | _ => rfl

theorem getVector_of {t : Scalar} {mem buf : List UInt8} {v w : Reader} {n size : Int}
    (number : t ≠ .byte) (got : getInt lib u = some (n, v))
    (sized : i32 (n * t.units) = size)
    (ok : gather (decide (xdrDapBuffSize < size)) v size = some (buf, w)) :
    getVector lib t mem u = (xdrArrayOf lib t dodsMaxArray t.units mem buf).map fun r => (r, w) := by
  simp only [getVector, got, Option.bind_eq_bind, Option.bind_some, sized, ok, if_neg number,
    stride_eq number]
  cases xdrArrayOf lib t dodsMaxArray t.units mem buf <;> rfl

theorem getVector_none {t : Scalar} {mem : List UInt8} {v : Reader} {n size : Int}
    (got : getInt lib u = some (n, v)) (sized : i32 (n * t.units) = size) (number : t ≠ .byte)
    (lost : gather (decide (xdrDapBuffSize < size)) v size = none) :
    getVector lib t mem u = none := by
  simp only [getVector, got, Option.bind_eq_bind, Option.bind_some, stride_eq number, sized, lost,
    Option.bind_none]

variable {t : Scalar} {cells : List (Cell t)}

theorem arrayOctets {n : Nat} (small : n * t.units + 4 < 2 ^ 31) :
    i32 ((n : Int) * t.units) = (n * t.units : Nat) :=
  i32_ofNat_of_lt (n := n * t.units) (by omega)

/-- The octets of an array are gathered behind the number of elements, unless they fill
    `d_buf` to the last octet and have no room behind it. -/
theorem gatherVector (small : cells.length * t.units + 4 < 2 ^ 31)
    (fits : cells.length * t.units ≠ xdrDapBuffSize)
    (place : At u (lib.int cells.length ++ ((cells.flatMap fun cell => lib.coder t cell.octets) ++ rest))) :
    ∃ v w more, getInt lib u = some ((cells.length : Int), v) ∧
      gather (decide ((xdrDapBuffSize : Int) < (cells.length * t.units : Nat))) v
        (cells.length * t.units : Nat) =
      some (lib.uInt cells.length ++ ((cells.flatMap fun cell => lib.coder t cell.octets) ++ more), w) ∧
      At w rest := by
  have few := le_mul_units t cells.length
  have fours : cells.length * t.units % 4 = 0 := by
    cases t <;> simp only [Scalar.units] <;> omega
  obtain ⟨v, got, placed, count⟩ := getInt_spec ⟨by omega, by omega⟩ place
  have length := length_coders lib cells
  obtain ⟨buf, w, more, ok, after, same⟩ := gather_spec (decide ((xdrDapBuffSize : Int) <
    (cells.length * t.units : Nat))) placed (by
      rw [length, decide_eq_false_iff_not]
      simp only [xdrDapBuffSize] at fits ⊢
      omega) (by rw [length]; exact small)
  rw [length, same, count, ← lib.uInt_eq_int (by omega)] at ok
  exact ⟨v, w, more, got, ok, after⟩

theorem getVector_spec (number : t ≠ .byte) (small : cells.length * t.units + 4 < 2 ^ 31)
    (fits : cells.length * t.units ≠ xdrDapBuffSize) (narrow : t.width = 2 → cells.length = 1)
    (place : At u (lib.int cells.length ++ ((cells.flatMap fun cell => lib.coder t cell.octets) ++ rest))) :
    ∃ v, getVector lib t (List.replicate (cells.length * t.width) 0) u =
      some ((cells.length, cells.flatMap Cell.octets), v) ∧ At v rest := by
  obtain ⟨v, w, more, got, ok, after⟩ := gatherVector small fits place
  have few := le_mul_units t cells.length
  have filled : fill lib t t.units cells.length 0 ((cells.flatMap fun cell => lib.coder t cell.octets) ++ more)
      (List.replicate (cells.length * t.width) 0) = some (cells.flatMap Cell.octets) := by
    by_cases two : t.width = 2
    · obtain ⟨cell, rfl⟩ := List.length_eq_one_iff.mp (narrow two)
      have room : (List.replicate t.width (0 : UInt8)).length = t.width := List.length_replicate ..
      simpa using fill_one t.units cell more room
    · have stride : t.units = t.width := by
        cases t <;> simp_all [Scalar.units, Scalar.width]
      rw [stride]
      exact fill_coders cells [] _ more (List.length_replicate ..)
  refine ⟨w, ?_, after⟩
  rw [getVector_of number got (arrayOctets small) ok, xdrArrayOf_of_le (by omega)
    (by simp only [dodsMaxArray]; omega), filled]
  rfl

/-- Elements that fill `d_buf` do not fit behind the count. -/
theorem getVector_full {mem : List UInt8} (number : t ≠ .byte)
    (full : cells.length * t.units = xdrDapBuffSize)
    (place : At u (lib.int cells.length ++ ((cells.flatMap fun cell => lib.coder t cell.octets) ++ rest))) :
    getVector lib t mem u = none := by
  have small : cells.length * t.units + 4 < 2 ^ 31 := by rw [full]; decide
  have few := le_mul_units t cells.length
  obtain ⟨v, got, placed, -⟩ := getInt_spec ⟨by omega, by omega⟩ place
  have length := length_coders lib cells
  have overrun := readInto_overrun 4 placed (by rw [length, full]; decide)
  rw [length] at overrun
  have lost : gather (decide ((xdrDapBuffSize : Int) < (cells.length * t.units : Nat))) v
      (cells.length * t.units : Nat) = none := by
    rw [decide_eq_false (by rw [full]; omega), gather, if_neg Bool.false_ne_true, overrun]
    rfl
  exact getVector_none got (arrayOctets small) number lost

/-- Two or more numbers of two octets are stored four octets apart. -/
theorem getVector_narrow (number : t ≠ .byte) (small : cells.length * t.units + 4 < 2 ^ 31)
    (fits : cells.length * t.units ≠ xdrDapBuffSize) (narrow : t.width = 2) (several : 2 ≤ cells.length)
    (place : At u (lib.int cells.length ++ ((cells.flatMap fun cell => lib.coder t cell.octets) ++ rest))) :
    getVector lib t (List.replicate (cells.length * t.width) 0) u = none := by
  obtain ⟨v, w, more, got, ok, after⟩ := gatherVector small fits place
  have few := le_mul_units t cells.length
  have four : t.units = 4 := by cases t <;> simp_all [Scalar.units, Scalar.width]
  have overrun : fill lib t t.units cells.length 0 ((cells.flatMap fun cell => lib.coder t cell.octets) ++ more)
      (List.replicate (cells.length * t.width) 0) = none := by
    apply fill_overrun cells more (List.ne_nil_of_length_pos (by omega))
    rw [List.length_replicate, narrow, four]
    omega
  rw [getVector_of number got (arrayOctets small) ok, xdrArrayOf_of_le (by omega)
    (by simp only [dodsMaxArray]; omega), overrun]
  rfl

end Libdap.Marshal.XDRStreamUnMarshaller
