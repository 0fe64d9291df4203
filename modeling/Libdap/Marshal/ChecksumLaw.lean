import Libdap.Foundation.Crc
import Libdap.Marshal.D4RoundTrip

/-! # The checksum of what is put

Between a reset and the reading of the checksum any methods are called. What the register
has taken by then is settled for every run; it is the octets of all the values in the order
of the calls, unless a call hands over too many of them or puts a part of a `float64` vector.
-/

namespace Libdap.Marshal.ChecksumLaw

open D4RoundTrip (Number putNumber)
open Words

def polynomial : BitVec 32 := 0xedb88320#32

/-- The CRC-32 of octets. -/
def crc32 (bytes : List UInt8) : UInt32 :=
  ⟨~~~bytes.foldl (fun c b => Crc.octet polynomial c b.toBitVec) (BitVec.allOnes 32)⟩

theorem kCrc32Table_eq {i : Nat} (inside : i < 256) :
    kCrc32Table[i]!.toBitVec = Crc.bits polynomial 8 (BitVec.ofNat 32 i) := by
  have all : (List.range 256).all (fun i => kCrc32Table[i]!.toBitVec == Crc.bits polynomial 8 (BitVec.ofNat 32 i)) := by
    decide +kernel
  exact beq_iff_eq.mp (List.all_eq_true.mp all i (List.mem_range.mpr inside))

theorem crc_addOctet (c : Crc32) (b : UInt8) :
    (c.addOctet b).crc.toBitVec = Crc.octet polynomial c.crc.toBitVec b.toBitVec := by
  have low : ((c.crc ^^^ b.toUInt32) &&& 0xff).toNat < 256 := by
    rw [UInt32.toNat_and]
    exact Nat.lt_of_le_of_lt Nat.and_le_right (by decide)
  have entry : BitVec.ofNat 32 ((c.crc ^^^ b.toUInt32) &&& 0xff).toNat =
      (c.crc.toBitVec ^^^ b.toBitVec.setWidth 32) &&& 255#32 := by
    apply BitVec.eq_of_toNat_eq
    rw [BitVec.toNat_ofNat, Nat.mod_eq_of_lt (by omega)]
    rfl
  rw [Crc.octet_eq, ← entry, ← kCrc32Table_eq low]
  rfl

theorem crc_foldl (bytes : List UInt8) (c : Crc32) :
    (bytes.foldl Crc32.addOctet c).crc.toBitVec =
      bytes.foldl (fun c b => Crc.octet polynomial c b.toBitVec) c.crc.toBitVec := by
  induction bytes generalizing c with
  | nil => rfl
  | cons b bytes ih => rw [List.foldl_cons, List.foldl_cons, ih, crc_addOctet]

theorem getCrc32_foldl (bytes : List UInt8) : (bytes.foldl Crc32.addOctet .reset).getCrc32 = crc32 bytes := by
  apply UInt32.toBitVec_inj.mp
  exact congrArg (~~~·) (crc_foldl bytes .reset)

/-- A call between the reset and the reading. -/
inductive Put where
  | number (t : Number) (n : Nat)
  | count (n : Nat)
  | str (val : List UInt8)
  | url (val : List UInt8)
  | block (val : List UInt8)
  | vector (t : Elem) (val : Elements t)
  | part (t : Elem) (val : Elements t)

namespace Put

variable (host : ByteOrder)

open D4StreamMarshaller in
def apply (m : D4StreamMarshaller) : Put → Effect
  | number t n => putNumber host m t n
  | count n => putCount host m n
  | str val | url val => putStr host m val
  | block val => putOpaqueDap4 host m val
  | vector t val => m.putVectorOf val.octets val.num t
  | part t val => m.putVectorPart val.octets val.num t

/-- The octets of the value. A count is none. -/
def bytes : Put → List UInt8
  | number t n => octets host t.width n
  | count _ => []
  | str val | url val | block val => val
  | vector _ val | part _ val => val.octets

/-- How many octets the method says that it has, before the number is narrowed. -/
def said : Put → Nat
  | part .float64 val => val.num * 4
  | p => (p.bytes host).length

/-- The octets that the register takes. -/
def taken (p : Put) : List UInt8 := (p.bytes host).take (p.said host % 2 ^ 32)

/-- The method says how many octets there are, and the register can be told. -/
def Whole (p : Put) : Prop :=
  (p.bytes host).length < 2 ^ 32 ∧ ∀ val : Elements .float64, p = part .float64 val → val.num = 0

theorem said_of_whole {p : Put} (whole : p.Whole host) : p.said host = (p.bytes host).length := by
  cases p with
  | part t val =>
      cases t with
      | float64 =>
          have none_ : val.num = 0 := whole.2 val rfl
          simp [said, bytes, val.length, none_]
      | _ => rfl
  | _ => rfl

theorem taken_of_whole {p : Put} (whole : p.Whole host) : p.taken host = p.bytes host := by
  rw [taken, said_of_whole host whole, Nat.mod_eq_of_lt whole.1, List.take_length]

end Put

variable (host : ByteOrder)

theorem checksum_put (m : D4StreamMarshaller) (data : List UInt8) (section_ : Section) :
    (m.put data section_).2 =
      { m with checksum := (data.take (data.length % 2 ^ 32)).foldl Crc32.addOctet m.checksum } := rfl

theorem checksum_putVectorBytes (m : D4StreamMarshaller) (val : List UInt8) (numBytes : Nat) :
    (m.putVectorBytes val numBytes).2 =
      { m with checksum := (val.take (numBytes % 2 ^ 32)).foldl Crc32.addOctet m.checksum } := by
  have narrowed : min (numBytes % 2 ^ 32) numBytes = numBytes % 2 ^ 32 := Nat.min_eq_left (Nat.mod_le _ _)
  simp only [D4StreamMarshaller.putVectorBytes, D4StreamMarshaller.checksumUpdate, Crc32.addData,
    List.take_take, narrowed]

/-- What any call does to the checksum. -/
theorem Put.apply_eq (p : Put) (m : D4StreamMarshaller) :
    (p.apply host m).2 = { m with checksum := (p.taken host).foldl Crc32.addOctet m.checksum } := by
  cases p with
  | number t n => cases t <;> exact checksum_put m _ _
  | count n => rfl
  | str val => exact checksum_put m _ _
  | url val => exact checksum_put m _ _
  | block val => exact checksum_put m _ _
  | vector t val =>
      rw [apply, D4StreamMarshaller.putVectorOf_eq, checksum_putVectorBytes, ← val.length]
      rfl
  | part t val =>
      by_cases double : t = .float64
      · subst double
        rw [apply, D4StreamMarshaller.putVectorPart, D4StreamMarshaller.putVectorFloat32, checksum_putVectorBytes,
          Nat.shiftLeft_eq]
        rfl
      · have counted : (part t val).said host = val.octets.length := by
          cases t with
          | float64 => exact absurd rfl double
          | _ => rfl
        rw [apply, D4StreamMarshaller.putVectorPart_eq m _ _ double, checksum_putVectorBytes, ← val.length, taken, counted]
        rfl

/-- The marshaller after some calls. -/
def run (puts : List Put) (m : D4StreamMarshaller) : D4StreamMarshaller :=
  puts.foldl (fun m p => (p.apply host m).2) m

theorem run_eq (puts : List Put) (m : D4StreamMarshaller) :
    run host puts m = { m with checksum := (puts.flatMap (Put.taken host)).foldl Crc32.addOctet m.checksum } := by
  induction puts generalizing m with
  | nil => rfl
  | cons p puts ih =>
      have next : run host (p :: puts) m = run host puts (p.apply host m).2 := rfl
      rw [next, ih, Put.apply_eq, List.flatMap_cons, List.foldl_append]

theorem getCrc32_run (puts : List Put) (m : D4StreamMarshaller) :
    (run host puts m.resetChecksum).checksum.getCrc32 = crc32 (puts.flatMap (Put.taken host)) := by
  rw [run_eq]
  exact getCrc32_foldl _

/-- The checksum does not depend on whether data are written, and it is the CRC-32 of the values as
    long as no call gives the register less than the octets of its value. -/
theorem checksum_of_run (puts : List Put) (m : D4StreamMarshaller) :
    (∀ writeData, (run host puts { m with writeData }.resetChecksum).checksum =
        (run host puts m.resetChecksum).checksum) ∧
      ((∀ p ∈ puts, p.Whole host) →
        (run host puts m.resetChecksum).checksum.getCrc32 = crc32 (puts.flatMap (Put.bytes host))) := by
  constructor
  · intro writeData
    rw [run_eq, run_eq]
    rfl
  · intro whole
    have taken : puts.flatMap (Put.taken host) = puts.flatMap (Put.bytes host) :=
      List.flatMap_congr fun p member => Put.taken_of_whole host (whole p member)
    rw [getCrc32_run, taken]

theorem pieces_whole : ∀ p ∈ [Put.str [97], .count 2, .part .float64 ⟨[], 0, rfl⟩], p.Whole .little := by
  intro p member
  simp only [List.mem_cons, List.not_mem_nil, or_false] at member
  rcases member with rfl | rfl | rfl <;> simp [Put.Whole, Put.bytes]

theorem checksum_of_pieces :
    (run .little [.str [97], .count 2, .part .float64 ⟨[], 0, rfl⟩]
      (D4StreamMarshaller.resetChecksum ⟨.reset, true⟩)).checksum.getCrc32 = crc32 [97] :=
  (checksum_of_run .little _ ⟨.reset, true⟩).2 pieces_whole

/-- Half of the one number of a `float64` part is missing. -/
theorem half_missing :
    ¬∀ (host : ByteOrder) (puts : List Put) (m : D4StreamMarshaller),
      (run host puts m.resetChecksum).checksum.getCrc32 = crc32 (puts.flatMap (Put.bytes host)) := by
  intro always
  have one := always .little [.part .float64 ⟨[0, 0, 0, 0, 0, 0, 240, 63], 1, rfl⟩] ⟨.reset, true⟩
  exact absurd one (by decide +kernel)

end Libdap.Marshal.ChecksumLaw
