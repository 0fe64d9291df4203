import Libdap.Dap2.VectorCapacity
import Libdap.Dap4.DecimalTexts
import Libdap.Foundation.Words
import Libdap.Util.LongToString
import Mathlib.Data.List.Induction

/-! # Array constants in function calls

Each integer type has a rule for the list behind its `$`, which converts the words one by one and puts them in
a vector. The vector becomes an Array. A hint comes first and is what the vector reserves.
-/

namespace Libdap.Dap4.ArrayConstants

open Ints Dap2 Words

/-! ## The source -/

/-- What is thrown on the way, and what has no meaning. -/
inductive Failure where
  | error (message : String)
  | length_error (message : String)
  | bad_alloc
  | invalid_argument (message : String)
  | undefined
  deriving Repr, DecidableEq

/-- The order of the octets in memory, and the sizes that there is room for. -/
structure Host where
  order : ByteOrder
  allocates : Nat → Bool

/-- The tokens that name an integer type. -/
inductive Dollar where
  | DOLLAR_BYTE
  | DOLLAR_UINT8
  | DOLLAR_INT8
  | DOLLAR_UINT16
  | DOLLAR_INT16
  | DOLLAR_UINT32
  | DOLLAR_INT32
  | DOLLAR_UINT64
  | DOLLAR_INT64
  deriving Repr, DecidableEq

/-- A derivation of a list, which is left-recursive. -/
inductive ArgList where
  | word (w : List Char)
  | append (list : ArgList) (w : List Char)
  deriving Repr, DecidableEq

/-- The words that a list derives. -/
def ArgList.words : ArgList → List (List Char)
  | word w => [w]
  | append list w => list.words ++ [w]

/-- `T` of a `std::vector<T>`. -/
def cppType : Dap2.Cardinal → CType
  | .dods_byte_c | .dods_char_c | .dods_uint8_c => ⟨8, false⟩
  | .dods_int8_c => ⟨8, true⟩
  | .dods_uint16_c => ⟨16, false⟩
  | .dods_int16_c => ⟨16, true⟩
  | .dods_uint32_c => ⟨32, false⟩
  | .dods_uint64_c => ⟨64, false⟩
  | .dods_int64_c => ⟨64, true⟩
  -- no list of integers has one of the last two
  | .dods_int32_c | .dods_float32_c | .dods_float64_c => ⟨32, true⟩

/-- `strtol` and `strtoll`, with what they return alone. -/
def strtol (w : List Char) : Int := (strtoll w).value

def strtoul (w : List Char) : Int := (strtoull w).value

/-- The evaluator keeps the hint of the last rule that had one. -/
structure Evaluator where
  d_arg_length_hint : Nat
  deriving Repr, DecidableEq

def Evaluator.set_arg_length_hint (e : Evaluator) (alh : Int) : Evaluator := { e with d_arg_length_hint := u64 alh }

/-- `arg_length_hint` -/
def arg_length_hint (e : Evaluator) (w : List Char) : Except Failure Evaluator :=
  match ParserUtil.get_uint64 w with
  | .error message => .error (.error message)
  | .ok v => .ok (e.set_arg_length_hint v)

/-- `max_size` of a vector with elements of so many octets. -/
def max_size (width : Nat) : Nat := (2 ^ 63 - 1) / width

def reserve (host : Host) (width n : Nat) : Except Failure Unit :=
  if max_size width < n then .error (.length_error "vector::reserve")
  else if host.allocates (n * width) then .ok () else .error .bad_alloc

section

variable (host : Host) (e : Evaluator)

/-- The value has been converted to `T` by the caller. -/
def init_arg_list (T : Dap2.Cardinal) (val : Int) : Except Failure (List Int) :=
  (if e.d_arg_length_hint > 0 then reserve host T.width e.d_arg_length_hint else .ok ()).map fun _ => [val]

/-- The rules of a list: the first word is converted before the list is made, and `push_back` converts the others. -/
def fast_arg_list (T : Dap2.Cardinal) (number : List Char → Int) : ArgList → Except Failure (List Int)
  | .word w => init_arg_list host e T ((cppType T).convert (number w))
  | .append list w => (fast_arg_list T number list).map fun values => values ++ [(cppType T).convert (number w)]

def fast_byte_arg_list := fast_arg_list host e .dods_byte_c strtol

def fast_int8_arg_list := fast_arg_list host e .dods_int8_c strtol

def fast_uint16_arg_list := fast_arg_list host e .dods_uint16_c strtol

def fast_int16_arg_list := fast_arg_list host e .dods_int16_c strtol

def fast_uint32_arg_list := fast_arg_list host e .dods_uint32_c strtoul

def fast_int32_arg_list := fast_arg_list host e .dods_int32_c strtol

def fast_uint64_arg_list := fast_arg_list host e .dods_uint64_c strtoul

def fast_int64_arg_list := fast_arg_list host e .dods_int64_c strtol

end

/-- An Array of one dimension, of which the elements are no variables. -/
structure ArrayConstant where
  name : List Char
  shape : List Int
  vector : Vector Unit
  deriving Repr, DecidableEq

/-- The elements of a vector in memory. -/
def memory (order : ByteOrder) (T : Dap2.Cardinal) (values : List Int) : List UInt8 :=
  values.flatMap fun v => octets order T.width (v % 256 ^ T.width).toNat

def Failure.ofLong : Util.LongFailure → Failure
  | .invalid_argument message => .invalid_argument message
  | .undefined => .undefined

/-- The name that the static `counter` gives. -/
def constant_name (counter : UInt64) : Except Failure (List Char) :=
  ((Util.long_to_string (Util.long.convert counter.toNat) 10).mapError Failure.ofLong).map ('g' :: ·)

def build_constant_array (host : Host) (counter : UInt64) (T : Dap2.Cardinal) (values : List Int) (dt : Dap2.Cardinal) :
    Except Failure (ArrayConstant × UInt64) :=
  let size := i32 values.length
  let vector := (Vector.ofProto (some (.cardinal dt))).set_length size
  match vector.set_value T (some fun i => (memory host.order T values).getD i 0) size with
  | .undefined => .error .undefined
  | .threw _ message => .error (.error message)
  | .done vector =>
    (constant_name counter).map fun name => ({ name, shape := [size], vector := vector.set_read_p true }, counter + 1)

/-- The class that the `D4RValue` of a vector takes for its elements. -/
def D4RValue (host : Host) (counter : UInt64) (T : Dap2.Cardinal) (values : List Int) : Except Failure (ArrayConstant × UInt64) :=
  build_constant_array host counter T values T

/-- The type of the elements of the vector. `Byte` and `UInt8` have the same rule. -/
def Dollar.element : Dollar → Dap2.Cardinal
  | DOLLAR_BYTE | DOLLAR_UINT8 => .dods_byte_c
  | DOLLAR_INT8 => .dods_int8_c
  | DOLLAR_UINT16 => .dods_uint16_c
  | DOLLAR_INT16 => .dods_int16_c
  | DOLLAR_UINT32 => .dods_uint32_c
  | DOLLAR_INT32 => .dods_int32_c
  | DOLLAR_UINT64 => .dods_uint64_c
  | DOLLAR_INT64 => .dods_int64_c

def Dollar.fast_arg_list (host : Host) (e : Evaluator) : Dollar → ArgList → Except Failure (List Int)
  | DOLLAR_BYTE | DOLLAR_UINT8 => fast_byte_arg_list host e
  | DOLLAR_INT8 => fast_int8_arg_list host e
  | DOLLAR_UINT16 => fast_uint16_arg_list host e
  | DOLLAR_INT16 => fast_int16_arg_list host e
  | DOLLAR_UINT32 => fast_uint32_arg_list host e
  | DOLLAR_INT32 => fast_int32_arg_list host e
  | DOLLAR_UINT64 => fast_uint64_arg_list host e
  | DOLLAR_INT64 => fast_int64_arg_list host e

/-- `array_constant`: the hint, the list, and the value. -/
def array_constant (host : Host) (e : Evaluator) (counter : UInt64) (d : Dollar) (hint : List Char) (list : ArgList) :
    Except Failure (ArrayConstant × UInt64) :=
  (arg_length_hint e hint).bind fun e =>
    (d.fast_arg_list host e list).bind fun values => D4RValue host counter d.element values

/-! ## What an Array constant is for -/

/-- The values that a vector holds. -/
def elements (order : ByteOrder) (T : Dap2.Cardinal) (v : Vector Unit) : List Int :=
  (List.range v.length.toNat).map fun i =>
    (cppType T).convert (word order (((v.buf.getD []).drop (i * T.width)).take T.width))

/-- The Array has these elements. -/
structure IsArray (order : ByteOrder) (T : Dap2.Cardinal) (vs : List Int) (array : ArrayConstant) : Prop where
  type : array.vector.proto = some (.cardinal T)
  readP : array.vector.readP = true
  shape : array.shape = [(vs.length : Int)]
  length : array.vector.length = vs.length
  elements : elements order T array.vector = vs

/-- There is the Array of the integers, or one of them is none of the type and an error says so. -/
def Exact (order : ByteOrder) (T : Dap2.Cardinal) (vs : List Int) : Except Failure (ArrayConstant × UInt64) → Prop
  | .ok (array, _) => IsArray order T vs array
  | .error .undefined => False
  | .error _ => ∃ v ∈ vs, ¬(cppType T).Fits v

/-- The hint is a number of elements that can be reserved. -/
def Granted (host : Host) (T : Dap2.Cardinal) (hint : Nat) : Prop :=
  hint < 2 ^ 64 ∧ (hint = 0 ∨ hint ≤ max_size T.width ∧ host.allocates (hint * T.width) = true)

/-- The conversion of a list gives the integers, and there is room for them. The number of the elements is put in an
`int`, that of their octets in an `unsigned int`, and `counter` is written as a `long`. -/
structure Arrives (host : Host) (counter : UInt64) (T : Dap2.Cardinal) (hint : Nat) (words : List (List Char)) (vs : List Int) :
    Prop where
  granted : Granted host T hint
  few : vs.length < 2 ^ 31
  octets : vs.length * T.width < 2 ^ 32
  counter : counter.toNat ≠ 2 ^ 63
  integers : List.Forall₂ (fun w v => (cppType T).Fits v ∧ InBase w v) words vs

/-! ## The steps -/

section

variable {host : Host} {e : Evaluator} {T : Dap2.Cardinal} {values : List Int} {order : ByteOrder}

theorem ArgList.words_ne_nil (list : ArgList) : list.words ≠ [] := by
  cases list <;> simp [ArgList.words]

/-- Every list of words has a derivation. -/
theorem ArgList.exists_words (w : List Char) (ws : List (List Char)) : ∃ list : ArgList, list.words = w :: ws := by
  induction ws using List.reverseRecOn with
  | nil => exact ⟨.word w, rfl⟩
  | append_singleton ws last ih =>
      obtain ⟨list, words⟩ := ih
      refine ⟨.append list last, ?_⟩
      rw [ArgList.words, words, List.cons_append]

/-- Each word is converted in its place. -/
theorem fast_arg_list_eq (number : List Char → Int) (list : ArgList) : fast_arg_list host e T number list =
    (init_arg_list host e T 0).map fun _ => list.words.map fun w => (cppType T).convert (number w) := by
  induction list with
  | word w =>
      simp only [fast_arg_list, init_arg_list, ArgList.words, List.map_cons, List.map_nil]
      split
      · cases reserve host T.width e.d_arg_length_hint <;> rfl
      · rfl
  | append list w ih =>
      rw [fast_arg_list, ih]
      cases init_arg_list host e T 0 with
      | error failure => rfl
      | ok values => simp [Except.map, ArgList.words]

/-- The types that `strtol` returns the integers of. -/
theorem strtol_into {t : CType} (some_ : 0 < t.bits) (least : -2 ^ 63 ≤ t.least) (bound : t.bound ≤ 2 ^ 63) :
    ReadsInto t strtol := by
  refine ⟨some_, ?_⟩
  intro w minus m rest read fits
  obtain ⟨low, high⟩ := fits
  exact strtoll_of_read read ⟨by omega, by omega⟩

theorem strtoul_into {t : CType} (some_ : 0 < t.bits) (least : 0 ≤ t.least) (bound : t.bound ≤ 2 ^ 64) :
    ReadsInto t strtoul := by
  refine ⟨some_, ?_⟩
  intro w minus m rest read fits
  obtain ⟨low, high⟩ := fits
  exact strtoull_of_read read ⟨by omega, by omega⟩

/-- The rules differ in the type and in the conversion, which knows the integers of the type. -/
theorem rule_eq (d : Dollar) : ∃ number, ReadsInto (cppType d.element) number ∧
    ∀ host e list, d.fast_arg_list host e list = fast_arg_list host e d.element number list := by
  cases d with
  | DOLLAR_UINT32 | DOLLAR_UINT64 => exact ⟨strtoul, strtoul_into (by decide) (by decide) (by decide), fun _ _ _ => rfl⟩
  | DOLLAR_BYTE | DOLLAR_UINT8 | DOLLAR_INT8 | DOLLAR_UINT16 | DOLLAR_INT16 | DOLLAR_INT32 | DOLLAR_INT64 =>
      exact ⟨strtol, strtol_into (by decide) (by decide) (by decide), fun _ _ _ => rfl⟩

theorem arg_length_hint_eq {hint : List Char} {h : Nat} (denotes : Denotes hint false h) : arg_length_hint e hint =
    if h < 2 ^ 64 then .ok ⟨h⟩ else .error (.error "The 64-bit integer value is out of range.") := by
  rw [arg_length_hint, ParserUtil.get_uint64_eq denotes]
  by_cases small : h < 2 ^ 64
  · simp only [if_pos small, Evaluator.set_arg_length_hint, u64_ofNat small]
  · simp only [if_neg small]

/-- A list is made when its hint can be reserved. -/
theorem init_arg_list_iff (host : Host) (T : Dap2.Cardinal) (h : Nat) (val : Int) :
    if h = 0 ∨ h ≤ max_size T.width ∧ host.allocates (h * T.width) = true then init_arg_list host ⟨h⟩ T val = .ok [val]
    else ∃ failure, init_arg_list host ⟨h⟩ T val = .error failure ∧ failure ≠ .undefined := by
  unfold init_arg_list reserve
  by_cases none_ : h = 0
  · subst none_
    rfl
  · have some_ : h > 0 := Nat.pos_of_ne_zero none_
    simp only [none_, if_pos some_, false_or]
    by_cases few : h ≤ max_size T.width
    · simp only [few, true_and, if_neg (Nat.not_lt.mpr few)]
      split
      · rfl
      · exact ⟨.bad_alloc, rfl, by simp⟩
    · simp only [few, false_and, if_pos (Nat.lt_of_not_le few), if_false]
      exact ⟨.length_error "vector::reserve", rfl, by simp⟩

/-- A hint that is granted has no effect, and one that is not is an error. -/
theorem array_constant_eq {hint : List Char} {h : Nat} (denotes : Denotes hint false h) (counter : UInt64) (d : Dollar)
    (list : ArgList) : ∃ number, ReadsInto (cppType d.element) number ∧
      (Granted host d.element h → array_constant host e counter d hint list =
        D4RValue host counter d.element (list.words.map fun w => (cppType d.element).convert (number w))) ∧
      (¬Granted host d.element h → ∃ failure, array_constant host e counter d hint list = .error failure ∧
        failure ≠ .undefined) := by
  obtain ⟨number, reads, rule⟩ := rule_eq d
  have started := init_arg_list_iff host d.element h 0
  refine ⟨number, reads, ?_, ?_⟩
  · rintro ⟨small, room⟩
    rw [if_pos room] at started
    rw [array_constant, arg_length_hint_eq denotes, if_pos small]
    simp only [Except.bind, rule, fast_arg_list_eq, started, Except.map]
  · intro other
    rw [array_constant, arg_length_hint_eq denotes]
    by_cases small : h < 2 ^ 64
    · rw [if_neg fun room => other ⟨small, room⟩] at started
      obtain ⟨failure, refused, meant⟩ := started
      refine ⟨failure, ?_, meant⟩
      simp only [if_pos small, Except.bind, rule, fast_arg_list_eq, refused, Except.map]
    · refine ⟨.error "The 64-bit integer value is out of range.", ?_, by simp⟩
      rw [if_neg small]
      rfl

/-! ## The Array of a list -/

/-- A buffer that is filled. -/
theorem memcpy_replicate {from_ : List UInt8} (some_ : from_ ≠ []) : memcpy
    (some (List.replicate (from_.length % 2 ^ 32) 0)) 0 from_ = if from_.length < 2 ^ 32 then some (some from_) else none := by
  rw [memcpy, if_neg some_]
  simp only [List.length_replicate, Nat.zero_add, List.take_zero, List.nil_append]
  by_cases room : from_.length < 2 ^ 32
  · rw [Nat.mod_eq_of_lt room, if_pos le_rfl, if_pos room]
    simp
  · have less := Nat.mod_lt from_.length (by decide : 2 ^ 32 > 0)
    rw [if_neg (by omega), if_neg room]

/-- The storage of a vector that is set to some values of its type. The octets are counted with 32 bits. -/
theorem set_value_eq {v : Vector Unit} (type : v.proto = some (.cardinal T)) (at_ : Nat → UInt8) {sz : Int}
    (fits : FitsI32 sz) : v.set_value T (some at_) sz =
      if sz < 0 then .threw v "Logic error: Vector::set_cardinal_values_internal() called with negative numElts!"
      else if sz.toNat * T.width < 2 ^ 32 then
        .done { v with
          length := sz, buf := if sz = 0 then none else some (Memory.read at_ (sz.toNat * T.width)),
          capacity := sz.toNat, readP := true }
      else .undefined := by
  have same : (ElementType.cardinal T).stored.map Dap2.Cardinal.cppType = some T.cppType := rfl
  obtain ⟨-, high⟩ := fits
  simp only [Vector.set_value, type, same, if_true, Vector.m_set_cardinal_values_internal]
  by_cases negative : sz < 0
  · rw [if_pos negative, if_pos negative]
  · obtain ⟨n, rfl⟩ := Int.eq_ofNat_of_zero_le (Int.not_lt.mp negative)
    have stored : (v.set_length (n : Int)).stored = some T := by
      rw [Vector.stored, Vector.set_length, type]
      rfl
    have count : u32 (n : Int) = n := u32_of_lt (by omega)
    rw [if_neg negative, if_neg negative, Vector.create_eq stored, count, Int.toNat_natCast]
    simp only [Outcome.andThen, Vector.fillBuf]
    by_cases none_ : n = 0
    · subst none_
      simp [Vector.withBuffer, memcpy, Memory.read, Vector.set_length, Vector.set_read_p, type]
    · have length : (Memory.read at_ (n * T.width)).length = n * T.width := Vector.length_read at_ _
      have some_ : Memory.read at_ (n * T.width) ≠ [] := by
        apply List.ne_nil_of_length_pos
        rw [length]
        exact Nat.mul_pos (Nat.pos_of_ne_zero none_) T.width_pos
      have buffer : ((v.set_length (n : Int)).withBuffer T n).buf =
          some (List.replicate ((Memory.read at_ (n * T.width)).length % 2 ^ 32) 0) := by
        rw [Vector.withBuffer, if_neg none_, u32_ofNat, length, Nat.mul_comm]
      rw [buffer, memcpy_replicate some_, length]
      by_cases room : n * T.width < 2 ^ 32
      · rw [if_pos room, if_pos room]
        simp [Vector.withBuffer, Vector.set_length, Vector.set_read_p, none_, type]
      · rw [if_neg room, if_neg room]

/-- An element is where the ones before it end. -/
theorem chunk_flatMap {f : Int → List UInt8} {width : Nat} (length : ∀ v, (f v).length = width) {i : Nat}
    (inside : i < values.length) : ((values.flatMap f).drop (i * width)).take width = f values[i] := by
  induction values generalizing i with
  | nil => cases inside
  | cons v values ih =>
      rw [List.flatMap_cons]
      cases i with
      | zero => rw [Nat.zero_mul, List.drop_zero, List.take_left' (length v), List.getElem_cons_zero]
      | succ i =>
          rw [Nat.succ_mul, Nat.add_comm, ← List.drop_drop, List.drop_left' (length v)]
          exact ih (Nat.lt_of_succ_lt_succ inside)

/-- A value that fits is read back. -/
theorem convert_word (order : ByteOrder) {v : Int} (fits : (cppType T).Fits v) :
    (cppType T).convert (word order (octets order T.width (v % 256 ^ T.width).toNat)) = v := by
  rw [word_octets]
  cases T <;> simp [cppType, CType.Fits, CType.least, CType.bound, CType.convert, Dap2.Cardinal.width] at fits ⊢ <;> omega

theorem elements_memory (order : ByteOrder) (fits : ∀ v ∈ values, (cppType T).Fits v) {v : Vector Unit}
    (length : v.length = values.length) (buf : v.buf.getD [] = memory order T values) : elements order T v = values := by
  apply List.ext_getElem
  · simp [elements, length]
  · intro i _ inside
    have octets_ : ((memory order T values).drop (i * T.width)).take T.width =
        octets order T.width (values[i] % 256 ^ T.width).toNat :=
      chunk_flatMap (fun v => length_octets order T.width _) inside
    simp only [elements, List.getElem_map, List.getElem_range, buf, octets_]
    exact convert_word order (fits _ (List.getElem_mem inside))

/-- The counter as a `long`. -/
theorem long_counter (counter : UInt64) : Util.long.convert counter.toNat =
    if counter.toNat < 2 ^ 63 then (counter.toNat : Int) else -((2 ^ 64 - counter.toNat : Nat) : Int) := by
  have bound := counter.toNat_lt
  simp only [CType.convert, Util.long, if_true, Nat.reduceSub]
  split <;> omega

/-- The counter is written, but for the one that is the least `long`. -/
theorem name_of_counter {counter : UInt64} (other : counter.toNat ≠ 2 ^ 63) : ∃ name, constant_name counter = .ok name := by
  have fits {n : Nat} (small : n < 2 ^ 63) : Util.long.Fits n := by
    simp only [CType.Fits, CType.least, CType.bound, Util.long, if_true, Nat.reduceSub]
    omega
  have natural {n : Nat} (small : n < 2 ^ 63) (str_val : List Char) :
      ∃ digits, Util.append_long_to_string n 10 str_val = .ok digits := by
    have writable : Util.Writable n (10 : Nat) := ⟨fits small, by decide, by decide⟩
    obtain ⟨c, rest, ds, written, -⟩ := Util.append_natural writable
    exact ⟨_, written str_val⟩
  have digits_ : ∃ digits, Util.long_to_string (Util.long.convert counter.toNat) 10 = .ok digits := by
    rw [long_counter]
    split
    · rename_i low
      exact natural low []
    · have bound := counter.toNat_lt
      have small : 2 ^ 64 - counter.toNat < 2 ^ 63 := by omega
      obtain ⟨digits, written⟩ := natural small ['-']
      refine ⟨digits, ?_⟩
      have front : Util.append_long_to_string (-(2 ^ 64 - counter.toNat : Nat)) (10 : Nat) [] = _ :=
        Util.append_negative (by omega) (fits small) []
      exact front.trans written
  obtain ⟨digits, written⟩ := digits_
  refine ⟨'g' :: digits, ?_⟩
  rw [constant_name, written]
  rfl

theorem no_name_of_counter {counter : UInt64} (least : counter.toNat = 2 ^ 63) :
    constant_name counter = .error .undefined := by
  have last : Util.long.convert counter.toNat = -2 ^ 63 := by
    rw [least]
    decide
  rw [constant_name, last, Util.long_to_string, Util.append_least (by decide) (by decide)]
  rfl

theorem read_whole (l : List UInt8) : Memory.read (fun i => l.getD i 0) l.length = l := by
  apply List.ext_getElem
  · rw [Vector.length_read]
  · intro i _ inside
    simp only [Memory.read, List.getElem_map, List.getElem_range, List.getD_eq_getElem?_getD,
      List.getElem?_eq_getElem inside, Option.getD_some]

variable {counter : UInt64}

theorem D4RValue_negative (T : Dap2.Cardinal) (counter : UInt64) (host : Host) (negative : i32 values.length < 0) :
    ∃ message, D4RValue host counter T values = .error (.error message) := by
  have int := i32_fits values.length
  rw [D4RValue, build_constant_array]
  generalize i32 values.length = size at int negative ⊢
  refine ⟨"Logic error: Vector::set_cardinal_values_internal() called with negative numElts!", ?_⟩
  rw [set_value_eq rfl _ int, if_pos negative]

/-- The octets are counted with 32 bits, and the counter has to be written. -/
theorem D4RValue_undefined (host : Host) (nonneg : 0 ≤ i32 values.length)
    (none_ : 2 ^ 32 ≤ (i32 values.length).toNat * T.width ∨ counter.toNat = 2 ^ 63) :
    D4RValue host counter T values = .error .undefined := by
  have int := i32_fits values.length
  rw [D4RValue, build_constant_array]
  generalize i32 values.length = size at int nonneg none_ ⊢
  rw [set_value_eq rfl _ int, if_neg (Int.not_lt.mpr nonneg)]
  by_cases room : size.toNat * T.width < 2 ^ 32
  · rcases none_ with none_ | least
    · exact absurd room (Nat.not_lt.mpr none_)
    · rw [if_pos room, no_name_of_counter least]
      rfl
  · rw [if_neg room]

/-- The storage that has been set holds the values. -/
theorem isArray_of_set (fits : ∀ v ∈ values, (cppType T).Fits v) (name : List Char) :
    IsArray order T values {
      name, shape := [(values.length : Int)],
      vector := {
        length := values.length, proto := some (.cardinal T),
        buf := if (values.length : Int) = 0 then none
          else some (Memory.read (fun i => (memory order T values).getD i 0) (values.length * T.width)),
        compoundBuf := [], str := [], capacity := values.length, readP := true } } := by
  have octets_ : (memory order T values).length = values.length * T.width := by
    simp [memory, List.length_flatMap]
  constructor
  · rfl
  · rfl
  · rfl
  · rfl
  · apply elements_memory order fits rfl
    rw [← octets_, read_whole]
    split
    · rename_i none_
      have empty : values = [] := List.length_eq_zero_iff.mp (Int.ofNat_eq_zero.mp none_)
      rw [empty]
      rfl
    · rfl

/-- The Array of the list has as many elements as an `int` can count of them. -/
theorem D4RValue_done (host : Host) (fits : ∀ v ∈ values, (cppType T).Fits v) (nonneg : 0 ≤ i32 values.length)
    (room : (i32 values.length).toNat * T.width < 2 ^ 32) (other : counter.toNat ≠ 2 ^ 63) :
    ∃ array, D4RValue host counter T values = .ok (array, counter + 1) ∧
      array.vector.length = i32 values.length ∧ (i32 values.length = values.length → IsArray host.order T values array) := by
  obtain ⟨name, named⟩ := name_of_counter other
  have int := i32_fits values.length
  rw [D4RValue, build_constant_array]
  generalize i32 values.length = size at int nonneg room ⊢
  rw [set_value_eq rfl _ int, if_neg (Int.not_lt.mpr nonneg), if_pos room, named]
  refine ⟨_, rfl, rfl, fun whole => ?_⟩
  subst whole
  exact isArray_of_set fits _

variable {words : List (List Char)} {vs : List Int}

theorem exact_error_iff {failure : Failure} (meant : failure ≠ .undefined) :
    Exact order T vs (.error failure) ↔ ∃ v ∈ vs, ¬(cppType T).Fits v := by
  cases failure with
  | undefined => exact absurd rfl meant
  | error | length_error | bad_alloc | invalid_argument => exact Iff.rfl

/-- A list of decimal integers is converted to them when each one fits and is read in its base. -/
theorem values_eq_iff {number : List Char → Int} (reads : ReadsInto (cppType T) number)
    (decimals : List.Forall₂ Decimal words vs) : (words.map fun w => (cppType T).convert (number w)) = vs ↔
      List.Forall₂ (fun w v => (cppType T).Fits v ∧ InBase w v) words vs := by
  induction decimals with
  | nil => exact iff_of_true rfl .nil
  | cons decimal _ ih => rw [List.map_cons, List.cons.injEq, List.forall₂_cons, convert_number_iff reads decimal, ih]

/-- When the values that a list is converted to become an Array, or an error. -/
theorem exact_D4RValue_iff (host : Host) {values vs : List Int} (length : values.length = vs.length)
    (fits : ∀ v ∈ values, (cppType T).Fits v) : Exact host.order T vs (D4RValue host counter T values) ↔
      (vs.length < 2 ^ 31 ∧ vs.length * T.width < 2 ^ 32 ∧ counter.toNat ≠ 2 ^ 63 ∧ values = vs) ∨
        i32 vs.length < 0 ∧ ∃ v ∈ vs, ¬(cppType T).Fits v := by
  have int := i32_fits vs.length
  have whole (few : vs.length < 2 ^ 31) : i32 vs.length = vs.length := i32_ofNat_of_lt few
  by_cases negative : i32 vs.length < 0
  · obtain ⟨message, failed⟩ := D4RValue_negative T counter host (length ▸ negative)
    rw [failed, exact_error_iff (by simp)]
    constructor
    · intro unfit
      exact .inr ⟨negative, unfit⟩
    · rintro (⟨few, -⟩ | ⟨-, unfit⟩)
      · have same := whole few
        omega
      · exact unfit
  · have nonneg : 0 ≤ i32 values.length := by
      rw [length]
      omega
    rw [or_iff_left fun both => negative both.1]
    by_cases room : (i32 values.length).toNat * T.width < 2 ^ 32 ∧ counter.toNat ≠ 2 ^ 63
    · obtain ⟨array, done, count, isArray⟩ := D4RValue_done host fits nonneg room.1 room.2
      rw [done]
      rw [length] at count isArray room
      constructor
      · intro exact_
        have same : i32 vs.length = vs.length := count.symm.trans exact_.length
        have values_ := (isArray same).elements
        rw [same, Int.toNat_natCast] at room
        exact ⟨by have := int.2; omega, room.1, room.2, values_.symm.trans exact_.elements⟩
      · rintro ⟨few, -, -, same⟩
        rw [← same]
        rw [← same] at few isArray
        exact isArray (i32_ofNat_of_lt few)
    · have none_ : 2 ^ 32 ≤ (i32 values.length).toNat * T.width ∨ counter.toNat = 2 ^ 63 := by
        by_contra both
        rw [not_or, Nat.not_le] at both
        exact room both
      rw [D4RValue_undefined host nonneg none_]
      apply iff_of_false
      · exact id
      · rintro ⟨few, octets_, other, -⟩
        apply room
        rw [length, whole few, Int.toNat_natCast]
        exact ⟨octets_, other⟩

variable {hint : List Char} {h : Nat} {list : ArgList}

/-- Behind a hint that is granted the list decides. -/
theorem exact_granted_iff (d : Dollar) (length_hint : Denotes hint false h)
    (decimals : List.Forall₂ Decimal list.words vs) (granted : Granted host d.element h) :
    Exact host.order d.element vs (array_constant host e counter d hint list) ↔
      Arrives host counter d.element h list.words vs ∨ i32 vs.length < 0 ∧ ∃ v ∈ vs, ¬(cppType d.element).Fits v := by
  obtain ⟨number, reads, taken, -⟩ := array_constant_eq (h := h) length_hint counter d list
  have length : (list.words.map fun w => (cppType d.element).convert (number w)).length = vs.length := by
    rw [List.length_map, decimals.length_eq]
  have fits : ∀ v ∈ list.words.map fun w => (cppType d.element).convert (number w), (cppType d.element).Fits v := by
    intro v mem
    obtain ⟨w, -, rfl⟩ := List.mem_map.mp mem
    exact CType.fits_convert reads.1 _
  rw [taken granted, exact_D4RValue_iff host length fits, values_eq_iff reads decimals]
  constructor
  · rintro (⟨few, octets_, other, integers⟩ | unfit)
    · exact .inl ⟨granted, few, octets_, other, integers⟩
    · exact .inr unfit
  · rintro (⟨-, few, octets_, other, integers⟩ | unfit)
    · exact .inl ⟨few, octets_, other, integers⟩
    · exact .inr unfit

/-- An Array constant is exact when its integers arrive, and otherwise when one of them is none of the type and the
list is refused for another reason. -/
theorem array_constant_exact_iff (host : Host) (e : Evaluator) (counter : UInt64) (d : Dollar)
    (length_hint : Denotes hint false h) (decimals : List.Forall₂ Decimal list.words vs) :
    Exact host.order d.element vs (array_constant host e counter d hint list) ↔
      Arrives host counter d.element h list.words vs ∨
        (¬Granted host d.element h ∨ i32 vs.length < 0) ∧ ∃ v ∈ vs, ¬(cppType d.element).Fits v := by
  by_cases granted : Granted host d.element h
  · rw [exact_granted_iff d length_hint decimals granted, or_iff_right (not_not_intro granted)]
  · obtain ⟨number, -, -, refused⟩ := array_constant_eq length_hint counter d list
    obtain ⟨failure, failed, meant⟩ := refused granted
    rw [failed, exact_error_iff meant]
    constructor
    · intro unfit
      exact .inr ⟨.inl granted, unfit⟩
    · rintro (arrives | ⟨-, unfit⟩)
      · exact absurd arrives.granted granted
      · exact unfit

end

/-- `$Int16(2: 7, -5)` -/
theorem int16_arrives : Exact .little .dods_int16_c [7, -5]
    (array_constant ⟨.little, fun _ => true⟩ ⟨0⟩ 1 .DOLLAR_INT16 ['2'] (.append (.word ['7']) ['-', '5'])) := by
  have seven : Decimal ['7'] 7 := ⟨false, [], ['7'], [7], rfl, .inl rfl, by decide, .cons (by decide) .nil, rfl⟩
  have five : Decimal ['-', '5'] (-5) := ⟨true, ['-'], ['5'], [5], rfl, rfl, by decide, .cons (by decide) .nil, rfl⟩
  have denotes : Denotes ['2'] false 2 := denotes_of_read (by decide)
  have decimals : List.Forall₂ Decimal (ArgList.append (.word ['7']) ['-', '5']).words [7, -5] :=
    .cons seven (.cons five .nil)
  apply (array_constant_exact_iff ⟨.little, fun _ => true⟩ ⟨0⟩ 1 .DOLLAR_INT16 denotes decimals).mpr
  left
  exact {
    granted := ⟨by decide, .inr ⟨by decide, rfl⟩⟩
    few := by decide
    octets := by decide
    counter := by decide
    integers := .cons (by decide) (.cons (by decide) .nil) }

/-- `$Byte(1: 300)` is an Array of the element 44. -/
theorem byte_wraps : ¬∀ (host : Host) (e : Evaluator) (counter : UInt64) (d : Dollar) (hint : List Char) (h : Nat)
    (list : ArgList) (vs : List Int), Denotes hint false h → List.Forall₂ Decimal list.words vs →
    Exact host.order d.element vs (array_constant host e counter d hint list) := by
  intro all
  have decimal : Decimal ['3', '0', '0'] 300 :=
    ⟨false, [], ['3', '0', '0'], [3, 0, 0], rfl, .inl rfl, by decide,
      .cons (by decide) (.cons (by decide) (.cons (by decide) .nil)), rfl⟩
  have denotes : Denotes ['1'] false 1 := denotes_of_read (by decide)
  have granted : Granted ⟨.little, fun _ => true⟩ .dods_byte_c 1 := ⟨by decide, .inr ⟨by decide, rfl⟩⟩
  have decimals : List.Forall₂ Decimal (ArgList.word ['3', '0', '0']).words [300] := .cons decimal .nil
  have exact_ := all ⟨.little, fun _ => true⟩ ⟨0⟩ 1 .DOLLAR_BYTE ['1'] 1 _ [300] denotes decimals
  rcases (exact_granted_iff .DOLLAR_BYTE denotes decimals granted).mp exact_ with arrives | ⟨negative, -⟩
  · have integers : List.Forall₂ (fun w v => (cppType .dods_byte_c).Fits v ∧ InBase w v) [['3', '0', '0']] [300] :=
      arrives.integers
    have large : ¬(cppType .dods_byte_c).Fits 300 := by decide
    rcases integers with _ | ⟨⟨fits, -⟩, -⟩
    exact large fits
  · exact absurd negative (by decide)

end Libdap.Dap4.ArrayConstants
