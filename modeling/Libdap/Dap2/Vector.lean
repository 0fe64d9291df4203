import Libdap.Foundation.Ints
import Mathlib.Tactic.Ring

/-! # Vectors and their storage

A vector keeps its values in one of three places, as its element type asks: the
bytes of cardinals in a buffer, strings, or pointers to variables. One field, the
capacity, says how many elements the place in use has room for.
-/

namespace Libdap.Dap2

open Ints

/-- The types whose values are kept as bytes. -/
inductive Cardinal where
  | dods_byte_c
  | dods_char_c
  | dods_int8_c
  | dods_uint8_c
  | dods_int16_c
  | dods_uint16_c
  | dods_int32_c
  | dods_uint32_c
  | dods_int64_c
  | dods_uint64_c
  | dods_float32_c
  | dods_float64_c
  deriving Repr, DecidableEq

namespace Cardinal

def width : Cardinal → Nat
  | dods_byte_c | dods_char_c | dods_int8_c | dods_uint8_c => 1
  | dods_int16_c | dods_uint16_c => 2
  | dods_int32_c | dods_uint32_c | dods_float32_c => 4
  | dods_int64_c | dods_uint64_c | dods_float64_c => 8

/-- `types_match`: three of the types have values of type `dods_byte`. -/
def cppType : Cardinal → Cardinal
  | dods_byte_c | dods_char_c | dods_uint8_c => dods_byte_c
  | c => c

theorem width_pos (c : Cardinal) : 0 < c.width := by
  cases c <;> decide

theorem width_cppType (c : Cardinal) : c.cppType.width = c.width := by
  cases c <;> rfl

end Cardinal

/-- The type of the elements. That of an enumeration has the width of its element type. -/
inductive ElementType where
  | cardinal (c : Cardinal)
  | dods_enum_c (element : Cardinal)
  | dods_str_c
  | dods_url_c
  | dods_opaque_c
  | dods_array_c
  | dods_structure_c
  | dods_sequence_c
  | dods_grid_c
  deriving Repr, DecidableEq

namespace ElementType

/-- The type of the values in the buffer, if there is one. -/
def stored : ElementType → Option Cardinal
  | cardinal c | dods_enum_c c => some c
  | _ => none

/-- `type()` is the same, whatever the enumerations have for elements. -/
def sameType : ElementType → ElementType → Bool
  | dods_enum_c _, dods_enum_c _ => true
  | t, t' => t = t'

def isString : ElementType → Bool
  | dods_str_c | dods_url_c => true
  | _ => false

end ElementType

/-- `α` stands for the variables that are the elements of a vector of compound type. -/
structure Vector (α : Type) where
  length : Int
  proto : Option ElementType
  buf : Option (List UInt8)
  compoundBuf : List (Option α)
  str : List String
  capacity : Nat
  readP : Bool
  deriving Repr, DecidableEq

/-- What a call comes to. An exception leaves the vector as it is at that time; a call that
    uses memory outside of what there is has no state to go on from. -/
inductive Outcome (σ : Type) where
  | done (s : σ)
  | threw (s : σ) (message : String)
  | undefined
  deriving Repr, DecidableEq

namespace Outcome

variable {σ τ : Type}

def state : Outcome σ → Option σ
  | done s | threw s _ => some s
  | undefined => none

def andThen (o : Outcome σ) (f : σ → Outcome σ) : Outcome σ :=
  match o with
  | done s => f s
  | threw s message => threw s message
  | undefined => undefined

end Outcome

/-- What a `void *` leads to. -/
inductive Memory where
  | bytes (at_ : Nat → UInt8)
  | strings (at_ : Nat → String)

def Memory.read {β : Type} (at_ : Nat → β) (n : Nat) : List β := (List.range n).map at_

/-- `resize` of a `std::vector`. -/
def resize {β : Type} (l : List β) (n : Nat) (fill : β) : List β :=
  l.take n ++ List.replicate (n - l.length) fill

/-- `memcpy` to a place in a buffer. -/
def memcpy (buf : Option (List UInt8)) (offset : Nat) (from_ : List UInt8) : Option (Option (List UInt8)) :=
  if from_ = [] then some buf
  else
    match buf with
    | none => none
    | some b =>
      if offset + from_.length ≤ b.length then
        some (some (b.take offset ++ from_ ++ b.drop (offset + from_.length)))
      else none

/-- What `resize` throws for a negative length. -/
def lengthError : String := "vector::_M_default_append"

namespace Vector

variable {α : Type}

/-- A new vector. -/
def ofProto (proto : Option ElementType) : Vector α :=
  { length := -1, proto, buf := none, compoundBuf := [], str := [], capacity := 0, readP := false }

def stored (v : Vector α) : Option Cardinal := v.proto.bind ElementType.stored

def m_is_cardinal_type (v : Vector α) : Bool := v.stored.isSome

/-- Only called for a type without a width when the result is not used. -/
def width (v : Vector α) : Nat := u32 (v.length * ((v.stored.map Cardinal.width).getD 0 : Nat))

def set_length (v : Vector α) (l : Int) : Vector α := { v with length := l }

def set_read_p (v : Vector α) (state : Bool) : Vector α := { v with readP := state }

def m_delete_cardinal_data_buffer (v : Vector α) : Vector α := { v with buf := none, capacity := 0 }

/-- New storage is taken to be filled with zeros. -/
def m_create_cardinal_data_buffer_for_type (v : Vector α) (numEltsOfType : Nat) : Outcome (Vector α) :=
  match v.proto with
  | none => .threw v "create_cardinal_data_buffer_for_type: Logic error: _var is null!"
  | some proto =>
    match proto.stored with
    | none =>
      .threw v ("create_cardinal_data_buffer_for_type: incorrectly used on Vector whose type was not a " ++
        "cardinal (simple data types).")
    | some c =>
      let v := v.m_delete_cardinal_data_buffer
      if numEltsOfType = 0 then .done v
      else
        let bytesNeeded := u32 ((c.width * numEltsOfType : Nat) : Int)
        .done { v with buf := some (List.replicate bytesNeeded 0), capacity := numEltsOfType }

/-- The `memcpy` to the front of the buffer. -/
def fillBuf (v : Vector α) (from_ : List UInt8) : Outcome (Vector α) :=
  match memcpy v.buf 0 from_ with
  | none => .undefined
  | some buf => .done { v with buf }

def m_set_cardinal_values_internal (v : Vector α) (c : Cardinal) (fromArray : Nat → UInt8) (numElts : Int) :
    Outcome (Vector α) :=
  if numElts < 0 then
    .threw v "Logic error: Vector::set_cardinal_values_internal() called with negative numElts!"
  else
    ((v.set_length numElts).m_create_cardinal_data_buffer_for_type (u32 numElts)).andThen fun v =>
      (v.fillBuf (Memory.read fromArray (numElts.toNat * c.width))).andThen fun v => .done (v.set_read_p true)

/-- `set_value` for the values of type `c`. A vector of another type is left alone. -/
def set_value (v : Vector α) (c : Cardinal) (val : Option (Nat → UInt8)) (sz : Int) : Outcome (Vector α) :=
  match val, v.proto with
  | none, _ => .done v
  | some _, none => .undefined
  | some fromArray, some proto =>
    if proto.stored.map Cardinal.cppType = some c.cppType then v.m_set_cardinal_values_internal c fromArray sz
    else .done v

/-- `set_value` for strings. -/
def set_value_str (v : Vector α) (val : Option (Nat → String)) (sz : Int) : Outcome (Vector α) :=
  match v.proto, val with
  | none, _ => .undefined
  | some _, none => .done v
  | some proto, some at_ =>
    if proto.isString then
      if sz < 0 then .threw v lengthError
      else
        .done { v with str := Memory.read at_ sz.toNat, capacity := u32 sz, length := sz, readP := true }
    else .done v

def val2buf (v : Vector α) (val : Option Memory) (reuse : Bool) : Outcome (Vector α) :=
  match val with
  | none =>
    if v.length = 0 then .done v
    else .threw v "The incoming pointer does not contain any data."
  | some val =>
    match v.proto with
    | none => .undefined
    | some proto =>
      match proto.stored with
      | some _ =>
        match val with
        | .strings _ => .undefined
        | .bytes at_ =>
          (if v.buf.isNone ∨ reuse = false then v.m_create_cardinal_data_buffer_for_type (u32 v.length)
            else .done v).andThen fun v => v.fillBuf (Memory.read at_ v.width)
      | none =>
        if proto.isString then
          if v.length < 0 then .threw v lengthError
          else
            match val with
            | .bytes _ => .undefined
            | .strings at_ => .done { v with str := Memory.read at_ v.length.toNat, capacity := u32 v.length }
        else .threw v "Vector::val2buf: bad type"

def vec_resize (v : Vector α) (l : Int) : Outcome (Vector α) :=
  if v.m_is_cardinal_type then .threw v "Vector::vec_resize() is applicable to compound types only"
  else if l < 0 then .threw v lengthError
  else .done { v with compoundBuf := resize v.compoundBuf l.toNat none, capacity := l.toNat }

section

-- `type()` of an element
variable (type : α → ElementType)

def set_vec_nocopy (v : Vector α) (i : Nat) (val : Option α) : Outcome (Vector α) :=
  if u32 v.length ≤ i then .threw v "Invalid data: index too large."
  else
    match val, v.proto with
    | none, _ => .threw v "Invalid data: null pointer to BaseType object."
    | some _, none => .undefined
    | some b, some proto =>
      if (type b).sameType proto then
        (if v.compoundBuf.length ≤ i then v.vec_resize (i32 (v.compoundBuf.length + 100 : Nat)) else .done v).andThen
          fun v => if i < v.compoundBuf.length then .done { v with compoundBuf := v.compoundBuf.set i (some b) }
            else .undefined
      else .threw v "invalid data: type of incoming object does not match *this* vector type."

end

def clear_local_data (v : Vector α) : Vector α :=
  { v with buf := none, compoundBuf := [], str := [], capacity := 0, readP := false }

def reserve_value_capacity (v : Vector α) (numElements : Nat) : Outcome (Vector α) :=
  match v.proto with
  | none => .threw v "reserve_value_capacity: Logic error: _var is null!"
  | some proto =>
    match proto with
    | .cardinal _ | .dods_enum_c _ => v.m_create_cardinal_data_buffer_for_type numElements
    | .dods_array_c => .threw v "reserve_value_capacity: Arrays not supported!"
    -- the reserve of a std::vector leaves its elements as they are
    | .dods_str_c | .dods_url_c | .dods_opaque_c | .dods_structure_c | .dods_sequence_c | .dods_grid_c =>
      .done { v with capacity := numElements }

/-- The copies of the first elements. A null pointer cannot be followed. -/
def copyElements (elements : List (Option α)) (n : Nat) : Option (List (Option α)) :=
  if n ≤ elements.length ∧ (elements.take n).all Option.isSome then some (elements.take n) else none

/-- `m_duplicate`, where `this` has been a vector before or is a new one. -/
def m_duplicate (this v : Vector α) : Outcome (Vector α) :=
  let this := { this with length := v.length, proto := v.proto, readP := v.readP }
  if v.compoundBuf ≠ [] ∧ v.length < 0 then .threw this lengthError
  else
    match copyElements v.compoundBuf (if v.compoundBuf = [] then 0 else v.length.toNat) with
    | none => .undefined
    | some compoundBuf =>
      let this := { this with compoundBuf, str := v.str, buf := none }
      match v.buf with
      | none => .done { this with capacity := v.capacity }
      | some b =>
        if b.length < this.width then .undefined
        else
          (this.val2buf (some (.bytes fun i => b.getD i 0)) false).andThen fun this =>
            .done { this with capacity := v.capacity }

def copy (v : Vector α) : Outcome (Vector α) := m_duplicate (ofProto none) v

/-- The bytes that are copied are counted with an `int`. -/
def copyBytes (v rowMajorData : Vector α) (w startElement : Nat) : Outcome (Vector α) :=
  match v.buf, rowMajorData.buf with
  | none, _ =>
    .threw v "set_value_slice_from_row_major_vector:Logic error: this->_buf was unexpectedly null!"
  | some _, none =>
    .threw v "set_value_slice_from_row_major_vector:Logic error: rowMajorData._buf was unexpectedly null!"
  | some b, some from_ =>
    let numBytesToCopy := i32 rowMajorData.width
    if numBytesToCopy < 0 ∨ from_.length < numBytesToCopy then .undefined
    else
      match memcpy (some b) (u32 ((startElement * w : Nat) : Int)) (from_.take numBytesToCopy.toNat) with
      | none => .undefined
      | some buf => .done { v with buf }

/-- The loop that copies strings. -/
def copyStrings (v rowMajorData : Vector α) (startElement : Nat) : Outcome (Vector α) :=
  let n := rowMajorData.length.toNat
  if ∀ i ∈ List.range n, u32 ((startElement + i : Nat) : Int) < v.str.length ∧ i < rowMajorData.str.length then
    .done { v with
      str := (List.range n).foldl
        (fun str i => str.set (u32 ((startElement + i : Nat) : Int)) (rowMajorData.str.getD i "")) v.str }
  else .undefined

def set_value_slice_from_row_major_vector (v rowMajorData : Vector α) (startElement : Nat) : Outcome (Vector α) :=
  let funcName := "set_value_slice_from_row_major_vector:"
  match rowMajorData.proto, v.proto with
  | some rowProto, some proto =>
    if rowProto.sameType proto = false then
      .threw v (funcName ++ "Logic error: types do not match so cannot be copied!")
    else if rowMajorData.readP = false then
      .threw v (funcName ++
        "Logic error: the Vector to copy data from has !read_p() and should have been read in!")
    else if rowMajorData.length < 0 then
      .threw v (funcName ++
        "Logic error: the Vector to copy data from has length() < 0 and was probably not initialized!")
    else if rowMajorData.capacity < u32 rowMajorData.length then
      .threw v (funcName ++
        "Logic error: the Vector to copy from has a data capacity less than its length, can't copy!")
    else if v.capacity < u32 (startElement + rowMajorData.length) then
      .threw v (funcName ++
        "Logic error: the capacity of this Vector cannot hold all the data in the from Vector!")
    else
      match proto.stored with
      | some c => v.copyBytes rowMajorData c.width startElement
      | none =>
        if proto.isString then v.copyStrings rowMajorData startElement
        else
          .threw v (funcName ++ "Unimplemented method for Vectors of type: array, opaque, structure, " ++
            "sequence or grid.")
  | _, _ => .threw v (funcName ++ "Logic error: types do not match so cannot be copied!")

end Vector

end Libdap.Dap2
