import Libdap.Marshal.D4StreamMarshaller

/-! # DAP4 vectors in parts

A vector put in parts leaves the octets and the checksum of the whole vector, as long as
its octets are few enough for one child and its elements are not taken for elements of
half their width.
-/

namespace Libdap.Marshal.D4Parts

open Ints D4StreamMarshaller

variable {t : Elem}

/-- `put_vector_start` and `put_vector_end` do nothing; between them each part is put. -/
def putParts : List (Elements t) → D4StreamMarshaller → Effect
  | [], m => ([], m)
  | part :: parts, m =>
      let (sections, next) := m.putVectorPart part.octets part.num t
      let (others, last) := putParts parts next
      (sections ++ others, last)

def putWhole (val : Elements t) (m : D4StreamMarshaller) : Effect :=
  m.putVectorOf val.octets val.num t

/-- Consecutive parts, none of them empty, with numbers that are `unsigned int`s. -/
structure Partition (val : Elements t) (parts : List (Elements t)) : Prop where
  nonempty : ∀ part ∈ parts, part.num ≠ 0
  unsigned : ∀ part ∈ parts, part.num < 2 ^ 32
  whole : parts.flatMap Elements.octets = val.octets

/-- The same octets reach the stream, and the marshaller is left in the same state. -/
def Agree (first second : Effect) : Prop := emit first.1 = emit second.1 ∧ first.2 = second.2

theorem emit_parts (other : t ≠ .float64) (parts : List (Elements t)) (m : D4StreamMarshaller)
    (small : (parts.flatMap Elements.octets).length < 2 ^ 31) :
    emit (putParts parts m).1 = some (if m.writeData then parts.flatMap Elements.octets else []) ∧
      (putParts parts m).2 =
        { m with checksum := (parts.flatMap Elements.octets).foldl Crc32.addOctet m.checksum } := by
  induction parts generalizing m with
  | nil => simp [putParts, emit]
  | cons part parts ih =>
      rw [List.flatMap_cons, List.length_append] at small
      have put := putVectorPart_eq m part.octets part.num other
      rw [← part.length] at put
      have emitted := emit_putVectorBytes m (show part.octets.length < 2 ^ 31 by omega)
      have added := checksum_putVectorBytes m (show part.octets.length < 2 ^ 32 by omega)
      obtain ⟨emitOthers, last⟩ := ih (m.putVectorBytes part.octets part.octets.length).2 (by omega)
      rw [added] at emitOthers last
      simp only [putParts, put, added, emit_append, emitted, emitOthers, last, List.flatMap_cons,
        List.foldl_append, Option.bind_some, Option.map_some]
      cases m.writeData <;> simp

theorem agree_of_small (other : t ≠ .float64) {val : Elements t} {parts : List (Elements t)}
    (partition : Partition val parts) (small : val.octets.length < 2 ^ 31) (m : D4StreamMarshaller) :
    Agree (putParts parts m) (putWhole val m) := by
  obtain ⟨emitted, last⟩ := emit_parts other parts m (by rw [partition.whole]; exact small)
  rw [partition.whole] at emitted last
  have whole : putWhole val m = m.putVectorBytes val.octets val.octets.length := by
    rw [putWhole, putVectorOf_eq, val.length]
  rw [whole]
  exact ⟨emitted.trans (emit_putVectorBytes m small).symm,
    last.trans (checksum_putVectorBytes m (by omega)).symm⟩

/-- An empty vector has only the partition into no parts. -/
theorem Partition.nil_of_empty {val : Elements t} {parts : List (Elements t)}
    (partition : Partition val parts) (empty : val.num = 0) : parts = [] := by
  cases parts with
  | nil => rfl
  | cons part parts =>
      have wide : 0 < t.width := by cases t <;> simp [Elem.width]
      have some_ := partition.nonempty part List.mem_cons_self
      have length := congrArg List.length partition.whole
      rw [val.length, empty, List.flatMap_cons, List.length_append, part.length] at length
      have positive := Nat.mul_pos (Nat.pos_of_ne_zero some_) wide
      omega

theorem agree_of_empty {val : Elements t} {parts : List (Elements t)} (partition : Partition val parts)
    (empty : val.num = 0) (m : D4StreamMarshaller) : Agree (putParts parts m) (putWhole val m) := by
  have none : val.octets = [] := List.length_eq_zero_iff.mp (by rw [val.length, empty, Nat.zero_mul])
  have whole : putWhole val m = m.putVectorBytes val.octets val.octets.length := by
    rw [putWhole, putVectorOf_eq, val.length]
  have short : ([] : List UInt8).length < 2 ^ 31 := by simp
  rw [partition.nil_of_empty empty, whole, none]
  refine ⟨?_, (checksum_putVectorBytes m (by simp : ([] : List UInt8).length < 2 ^ 32)).symm⟩
  rw [emit_putVectorBytes m short]
  cases m.writeData <;> rfl

/-- Every vector can be cut into its elements. -/
theorem exists_singles (val : Elements t) : ∃ parts : List (Elements t),
    (∀ part ∈ parts, part.num = 1) ∧ parts.length = val.num ∧
      parts.flatMap Elements.octets = val.octets := by
  obtain ⟨octets, num, length⟩ := val
  induction num generalizing octets with
  | zero => exact ⟨[], by simp, rfl, (List.length_eq_zero_iff.mp (by simpa using length)).symm⟩
  | succ num ih =>
      rw [Nat.succ_mul] at length
      obtain ⟨parts, singles, count, whole⟩ := ih (octets.drop t.width) (by simp; omega)
      refine ⟨⟨octets.take t.width, 1, by simp; omega⟩ :: parts, ?_, ?_, ?_⟩
      · exact List.forall_mem_cons.mpr ⟨rfl, singles⟩
      · simpa using count
      · rw [List.flatMap_cons, whole]
        exact List.take_append_drop _ _

/-- The number of octets that is written of one element in a part. -/
def partWidth (t : Elem) : Nat := if t = .float64 then 4 else t.width

theorem putVectorPart_one (m : D4StreamMarshaller) (part : Elements t) (one : part.num = 1) :
    ∃ next : D4StreamMarshaller, next.writeData = m.writeData ∧
      m.putVectorPart part.octets part.num t =
        (if m.writeData then [.handOver (part.octets.take (partWidth t)) (partWidth t)] else [], next) := by
  by_cases half : t = .float64
  · subst half
    rw [one]
    exact ⟨m.checksumUpdate (part.octets.take 4) 4, rfl, rfl⟩
  · rw [putVectorPart_eq m part.octets part.num half, one, Nat.one_mul, partWidth, if_neg half]
    exact ⟨m.checksumUpdate (part.octets.take t.width) t.width, rfl, rfl⟩

theorem partWidth_le (t : Elem) : partWidth t ≤ t.width ∧ t.width ≤ 8 := by
  cases t with
  | enum k =>
      revert k
      decide
  | _ => decide

/-- Elements put one by one leave that many octets each. -/
theorem length_singles {parts : List (Elements t)} (singles : ∀ part ∈ parts, part.num = 1)
    (m : D4StreamMarshaller) (writes : m.writeData = true) :
    ∃ bytes, emit (putParts parts m).1 = some bytes ∧ bytes.length = parts.length * partWidth t := by
  induction parts generalizing m with
  | nil => exact ⟨[], rfl, by simp⟩
  | cons part parts ih =>
      rw [List.forall_mem_cons] at singles
      obtain ⟨next, same, put⟩ := putVectorPart_one m part singles.1
      obtain ⟨others, emitOthers, length⟩ := ih singles.2 next (same.trans writes)
      have few := partWidth_le t
      have taken : (part.octets.take (partWidth t)).length = partWidth t := by
        rw [List.length_take, part.length, singles.1, Nat.one_mul]
        omega
      refine ⟨part.octets.take (partWidth t) ++ others, ?_, ?_⟩
      · simp only [putParts, put, writes, if_true, emit_append, emitOthers,
          emit_handOver (show Keeps (partWidth t) by simp only [Keeps]; omega), Option.bind_some,
          Option.map_some, List.take_take, Nat.min_self]
      · rw [List.length_append, taken, length, List.length_cons]
        ring

/-- What a whole vector leaves is its number of octets, as far as a child can keep it. -/
theorem length_putWhole {val : Elements t} {m : D4StreamMarshaller} (writes : m.writeData = true)
    {bytes : List UInt8} (ok : emit (putWhole val m).1 = some bytes) :
    val.num * t.width % 2 ^ 32 < 2 ^ 31 ∧ bytes.length = val.num * t.width % 2 ^ 32 := by
  rw [putWhole, putVectorOf_eq] at ok
  simp only [putVectorBytes, writes, if_true] at ok
  by_cases natural : val.num * t.width % 2 ^ 32 < 2 ^ 31
  · refine ⟨natural, ?_⟩
    rw [emit_handOver_kept (i32_ofNat_of_lt natural)] at ok
    cases ok
    rw [List.length_take, List.length_take, val.length]
    omega
  · have negative : kept (val.num * t.width) < 0 :=
      i32_wrapped (Nat.le_of_not_lt natural) (Nat.mod_lt _ (by decide))
    rw [emit, if_neg fun h => Int.not_le.mpr negative (h _ List.mem_cons_self _ rfl)] at ok
    cases ok

/-- A vector put in any parts is the vector put at once, by every marshaller, if and only if
    it is not a vector of one or more `float64` and has fewer than `2 ^ 31` octets. -/
theorem parts_agree_iff (val : Elements t) :
    (∀ parts, Partition val parts → ∀ m : D4StreamMarshaller, Agree (putParts parts m) (putWhole val m)) ↔
      (t = .float64 → val.num = 0) ∧ val.octets.length < 2 ^ 31 := by
  constructor
  · intro agree
    obtain ⟨parts, singles, count, whole⟩ := exists_singles val
    have partition : Partition val parts :=
      ⟨fun part mem => by simp [singles part mem], fun part mem => by simp [singles part mem], whole⟩
    obtain ⟨same, -⟩ := agree parts partition ⟨.reset, true⟩
    obtain ⟨bytes, emitted, length⟩ := length_singles singles ⟨.reset, true⟩ rfl
    obtain ⟨small, equal⟩ := length_putWhole rfl (same.symm.trans emitted)
    rw [length, count] at equal
    rw [val.length]
    by_cases half : t = .float64
    · subst half
      simp only [partWidth, if_true, Elem.width] at equal small ⊢
      exact ⟨fun _ => by omega, by omega⟩
    · rw [partWidth, if_neg half] at equal
      exact ⟨fun double => absurd double half, by omega⟩
  · rintro ⟨notDouble, small⟩ parts partition m
    by_cases half : t = .float64
    · exact agree_of_empty partition (notDouble half) m
    · exact agree_of_small half partition small m

/-- One `float64` in one part loses its second half. -/
theorem parts_float64 : ¬∀ (t : Elem) (val : Elements t) (parts : List (Elements t)),
    Partition val parts → ∀ m : D4StreamMarshaller, Agree (putParts parts m) (putWhole val m) := by
  intro claim
  have one : Partition (t := .float64) ⟨[0, 0, 0, 0, 0, 0, 240, 63], 1, rfl⟩
      [⟨[0, 0, 0, 0, 0, 0, 240, 63], 1, rfl⟩] := ⟨by simp, by simp, rfl⟩
  obtain ⟨octets, -⟩ := claim .float64 _ _ one ⟨.reset, true⟩
  exact absurd octets (by decide)

end Libdap.Marshal.D4Parts
