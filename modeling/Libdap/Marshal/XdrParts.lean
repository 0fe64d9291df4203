import Libdap.Marshal.XDRStreamMarshaller

/-! # XDR vectors in parts

A vector put by `put_vector_start`, any number of `put_vector_part` and
`put_vector_end` is the vector that `put_vector` puts at once. Every part is encoded
for itself, with a count that is not sent; the padding comes from the number of octets
of all the parts.
-/

namespace Libdap.Marshal.XdrParts

open Ints Xdr XDRStreamMarshaller

variable (lib : Library) {t : Scalar}

/-- `put_vector` of a whole vector, by the method for its type. -/
def putWhole (cells : List (Cell t)) : Option (List Section) :=
  if t = .byte then putVectorByte lib (cells.flatMap Cell.octets) else putVector lib t cells

/-- `put_vector_part` for one part after the other. -/
def putEach : List (List (Cell t)) → Partial → Option (List Section × Partial)
  | [], m => some ([], m)
  | part :: parts, m => do
      let (sections, m) ← putVectorPart lib t part m
      let (others, m) ← putEach parts m
      return (sections ++ others, m)

/-- A vector of `num` elements in parts. -/
def putParts (num : Int) (parts : List (List (Cell t))) (m : Partial) :
    Option (List Section × Partial) := do
  let (start, m) ← putVectorStart lib num m
  let (sections, m) ← putEach lib parts m
  let (last, m) := putVectorEnd m
  return (start ++ sections ++ last, m)

/-- The octets that stand for an element in a vector: octets stand for themselves. -/
def element (cell : Cell t) : List UInt8 :=
  if t = .byte then cell.octets else lib.coder t cell.octets

def body (cells : List (Cell t)) : List UInt8 := cells.flatMap (element lib)

/-- The octets of a vector without the two counts. -/
def padded (cells : List (Cell t)) : List UInt8 := xdrOpaque (body lib cells)

variable {lib}

theorem body_byte (cells : List (Cell .byte)) : body lib cells = cells.flatMap Cell.octets :=
  List.flatMap_congr fun _ _ => if_pos rfl

theorem body_number (number : t ≠ .byte) (cells : List (Cell t)) :
    body lib cells = cells.flatMap fun cell => lib.coder t cell.octets :=
  List.flatMap_congr fun _ _ => if_neg number

theorem length_body_number (lib : Library) (number : t ≠ .byte) (cells : List (Cell t)) :
    (body lib cells).length = cells.length * t.units := by
  rw [body_number number, length_coders]

theorem length_body_byte (cells : List (Cell .byte)) : (body lib cells).length = cells.length := by
  rw [body_byte, length_cells, Scalar.width, Nat.mul_one]

theorem length_le_body (lib : Library) (cells : List (Cell t)) : cells.length ≤ (body lib cells).length := by
  by_cases number : t = .byte
  · subst number
    exact (length_body_byte cells).ge
  · rw [length_body_number lib number]
    exact le_mul_units t cells.length

theorem putVectorPart_byte (part : List (Cell .byte)) (m : Partial) (small : part.length + 8 < 2 ^ 32) :
    putVectorPart lib .byte part m = some ([.handOver (xdrOpaque (part.flatMap Cell.octets)) part.length],
      ⟨i32 (m.byteCount + part.length)⟩) := by
  have length : (part.flatMap Cell.octets).length = part.length := by
    rw [length_cells, Scalar.width, Nat.mul_one]
  have room : (part.length + 8) % 2 ^ 32 = part.length + 8 := Nat.mod_eq_of_lt small
  have bytes : xdrBytes lib (part.flatMap Cell.octets) (part.length + 8) =
      some (lib.uInt part.length ++ xdrOpaque (part.flatMap Cell.octets)) := by
    rw [xdrBytes, if_neg (by omega), length]
  have encoded : sink ((part.length + 8 : Nat) : Int)
      (lib.uInt part.length ++ xdrOpaque (part.flatMap Cell.octets)) =
      some (lib.uInt part.length ++ xdrOpaque (part.flatMap Cell.octets)) := by
    have padded := pad_lt part.length
    exact if_pos (by simp [length]; omega)
  have narrow : Scalar.byte.width = 1 := rfl
  rw [putVectorPart, if_pos narrow, room]
  simp only [bytes, encoded, Option.bind_eq_bind, Option.bind_some, List.drop_left' (lib.length_uInt _)]
  rfl

theorem putVectorPart_number (number : t ≠ .byte) (part : List (Cell t)) (m : Partial)
    (small : part.length * t.units + 4 < 2 ^ 31) :
    putVectorPart lib t part m = some (
      [.handOver (part.flatMap fun cell => lib.coder t cell.octets) (part.length * t.units)],
      ⟨i32 (m.byteCount + (part.length * t.units : Nat))⟩) := by
  have wide : t.width ≠ 1 := by cases t <;> simp_all [Scalar.width]
  have size : (((part.length * t.units + 4 : Nat) : Int) - 4) = (part.length * t.units : Nat) := by omega
  rw [putVectorPart, if_neg wide, encodeArray_eq number small]
  simp only [arraySize_eq small, size, Option.bind_eq_bind, Option.bind_some, encoding, Int.toNat_natCast,
    List.drop_left' (lib.length_uInt _)]
  rfl

/-- A part leaves the octets of its elements and adds their number to the count. -/
theorem putVectorPart_eq (lib : Library) (part : List (Cell t)) (m : Partial)
    (small : (body lib part).length + 4 < 2 ^ 31) :
    ∃ sections, putVectorPart lib t part m =
        some (sections, ⟨i32 (m.byteCount + (body lib part).length)⟩) ∧
      emit sections = some (body lib part) := by
  by_cases number : t = .byte
  · subst number
    rw [length_body_byte] at small ⊢
    refine ⟨_, putVectorPart_byte part m (by omega), ?_⟩
    have length : (part.flatMap Cell.octets).length = part.length := by
      rw [length_cells, Scalar.width, Nat.mul_one]
    rw [emit_handOver (by simp only [Keeps]; omega), body_byte, xdrOpaque, List.take_left' length]
  · have length := length_body_number lib number part
    rw [length] at small ⊢
    refine ⟨_, putVectorPart_number number part m small, ?_⟩
    rw [emit_handOver (by simp only [Keeps]; omega), body_number number, ← length_coders lib part,
      List.take_length]

theorem i32_add_mod (a b : Int) : i32 (a + b) % 4 = (a + b) % 4 := by
  simp only [i32]
  omega

/-- Parts leave the octets of all their elements, and a count that has the remainder of
    their number. -/
theorem putEach_eq (parts : List (List (Cell t))) (m : Partial)
    (small : (body lib parts.flatten).length + 4 < 2 ^ 31) :
    ∃ sections count, putEach lib parts m = some (sections, ⟨count⟩) ∧
      count % 4 = (m.byteCount + (body lib parts.flatten).length) % 4 ∧
      emit sections = some (body lib parts.flatten) := by
  induction parts generalizing m with
  | nil => exact ⟨[], m.byteCount, rfl, by simp [body], rfl⟩
  | cons part parts ih =>
      have split : body lib (part :: parts).flatten = body lib part ++ body lib parts.flatten := by
        simp [body]
      rw [split, List.length_append] at small
      obtain ⟨first, putFirst, emitFirst⟩ := putVectorPart_eq lib part m (by omega)
      obtain ⟨others, count, putOthers, counted, emitOthers⟩ :=
        ih ⟨i32 (m.byteCount + (body lib part).length)⟩ (by omega)
      refine ⟨first ++ others, count, ?_, ?_, ?_⟩
      · simp only [putEach, putFirst, putOthers, Option.bind_eq_bind, Option.bind_some]
        rfl
      · have step := i32_add_mod m.byteCount (body lib part).length
        rw [counted, split, List.length_append, Nat.cast_add]
        simp only at step ⊢
        omega
      · rw [emit_append, emitFirst, emitOthers, split]
        rfl

theorem emit_putVectorEnd (n : Nat) {count : Int} (counted : count % 4 = (0 + n) % 4) :
    emit (putVectorEnd ⟨count⟩).1 = some (List.replicate (pad n) 0) := by
  have remainder : (count % 4).toNat = n % 4 := by omega
  have zeros : (if n % 4 = 0 then 0 else 4 - n % 4) = pad n := by
    simp only [pad]
    split <;> omega
  simp only [putVectorEnd, remainder, zeros]
  exact emit_write _

/-- A vector put at once leaves the count twice and the padded octets. -/
theorem emit_putWhole (cells : List (Cell t)) (some_ : cells ≠ [])
    (small : 4 + (padded lib cells).length < 2 ^ 31) :
    (putWhole lib cells).bind emit =
      some (lib.int cells.length ++ (lib.int cells.length ++ padded lib cells)) := by
  have few := length_le_body lib cells
  simp only [padded, length_xdrOpaque] at small ⊢
  by_cases number : t = .byte
  · subst number
    have length : (cells.flatMap Cell.octets).length = cells.length := by
      rw [length_cells, Scalar.width, Nat.mul_one]
    rw [length_body_byte] at small
    rw [putWhole, if_pos rfl, putVectorByte_eq, Option.bind_some, length,
      emit_write_handOver (by simp only [Keeps]; omega), lib.uInt_eq_int (by omega),
      List.take_of_length_le (by simp [length]; omega), body_byte]
  · have length := length_body_number lib number cells
    have whole : pad (body lib cells).length = 0 := by
      rw [length, pad]
      cases t <;> simp only [Scalar.units] <;> omega
    rw [length] at small
    rw [putWhole, if_neg number, putVector_eq some_ number (by omega), Option.bind_some,
      emit_write_handOver (by simp only [Keeps]; omega), ← length_encoding lib, List.take_length,
      encoding, lib.uInt_eq_int (by omega), xdrOpaque, whole, body_number number]
    simp

/-- Whatever the partition, and whatever the last vector has left of the count: the parts
    leave what the whole vector leaves, and the count starts at zero. -/
theorem parts_emit (lib : Library) {t : Scalar} (cells : List (Cell t)) (parts : List (List (Cell t)))
    (m : Partial) (some_ : cells ≠ []) (partition : parts.flatten = cells)
    (small : 4 + (padded lib cells).length < 2 ^ 31) :
    (∃ start, putVectorStart lib cells.length m = some (start, ⟨0⟩)) ∧
    ∃ bytes sections last, (putWhole lib cells).bind emit = some bytes ∧
      putParts lib cells.length parts m = some (sections, last) ∧ emit sections = some bytes := by
  have short : (body lib parts.flatten).length + 4 < 2 ^ 31 := by
    rw [partition]
    simp only [padded, length_xdrOpaque] at small
    omega
  obtain ⟨sections, count, put, counted, emits⟩ := putEach_eq parts ⟨0⟩ short
  have start : putVectorStart lib cells.length m =
      some ([.write (lib.int cells.length), .write (lib.int cells.length)], ⟨0⟩) := by
    simp only [putVectorStart, putInt_eq, Option.bind_eq_bind, Option.bind_some]
    rfl
  refine ⟨⟨_, start⟩, _, [.write (lib.int cells.length), .write (lib.int cells.length)] ++ sections ++
    (putVectorEnd ⟨count⟩).1, (putVectorEnd ⟨count⟩).2, emit_putWhole cells some_ small, ?_, ?_⟩
  · simp only [putParts, start, put, Option.bind_eq_bind, Option.bind_some]
    rfl
  · rw [partition] at counted emits
    rw [emit_append, emit_append, emits, emit_putVectorEnd _ counted, padded, xdrOpaque]
    rw [← List.singleton_append, emit_append, emit_write]
    simp

/-- Three octets in two parts. -/
theorem parts_emit_three :
    (∃ start, putVectorStart (standard .little) 3 ⟨7⟩ = some (start, ⟨0⟩)) ∧
    ∃ bytes sections last,
      (@putWhole (standard .little) .byte [⟨[1], rfl⟩, ⟨[2], rfl⟩, ⟨[3], rfl⟩]).bind emit = some bytes ∧
      @putParts (standard .little) .byte 3 [[⟨[1], rfl⟩], [⟨[2], rfl⟩, ⟨[3], rfl⟩]] ⟨7⟩ =
        some (sections, last) ∧ emit sections = some bytes :=
  parts_emit (standard .little) [⟨[1], rfl⟩, ⟨[2], rfl⟩, ⟨[3], rfl⟩] [[⟨[1], rfl⟩], [⟨[2], rfl⟩, ⟨[3], rfl⟩]]
    ⟨7⟩ (by simp) rfl (by decide)

/-- The count is not at zero after `put_vector_end`, but at one after a vector of one octet. -/
theorem byteCount_left : ¬∀ (t : Scalar) (cells : List (Cell t)) (parts : List (List (Cell t)))
    (m : Partial), cells ≠ [] → cells.length < 2 ^ 31 → parts.flatten = cells →
    ∃ bytes sections last, (putWhole (standard .little) cells).bind emit = some bytes ∧
      putParts (standard .little) cells.length parts m = some (sections, last) ∧
      emit sections = some bytes ∧ last = ⟨0⟩ := by
  intro claim
  obtain ⟨-, sections, last, -, put, -, zero⟩ :=
    claim .byte [⟨[7], rfl⟩] [[⟨[7], rfl⟩]] ⟨0⟩ (by simp) (by simp) rfl
  have left : (@putParts (standard .little) .byte 1 [[⟨[7], rfl⟩]] ⟨0⟩).map Prod.snd = some ⟨1⟩ := by
    decide
  have same := (congrArg (Option.map Prod.snd) put).symm.trans left
  simp [zero] at same

end Libdap.Marshal.XdrParts
