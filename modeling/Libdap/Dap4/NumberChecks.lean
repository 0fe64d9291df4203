import Libdap.Dap4.NumberTexts
import Libdap.Foundation.Ints

/-! # Checks of integers

The functions that check a text and those that get the integer, each around one conversion of the C library.
What is converted is put in variables of different widths.
-/

namespace Libdap.Dap4

open Ints

/-- What a conversion returns, what it leaves of the text, and whether it sets `errno` to `ERANGE`. When it can read
nothing all of the text is left. -/
structure Conversion where
  value : Int
  start : Bool
  rest : List Char
  erange : Bool
  deriving Repr, DecidableEq

/-- `strtoll` with base 0, and `strtol` where a `long` has 64 bits. -/
def strtoll (val : List Char) : Conversion :=
  match Numeral.read val with
  | none => ⟨0, true, val, false⟩
  | some n =>
    let v := signed n.negative n.magnitude
    if v < -2 ^ 63 then ⟨-2 ^ 63, false, n.rest, true⟩
    else if 2 ^ 63 ≤ v then ⟨2 ^ 63 - 1, false, n.rest, true⟩
    else ⟨v, false, n.rest, false⟩

/-- `strtoull` with base 0, and `strtoul`. A minus sign is for the result, in its type. -/
def strtoull (val : List Char) : Conversion :=
  match Numeral.read val with
  | none => ⟨0, true, val, false⟩
  | some n =>
    if 2 ^ 64 ≤ n.magnitude then ⟨2 ^ 64 - 1, false, n.rest, true⟩
    else ⟨(u64 (signed n.negative n.magnitude) : Nat), false, n.rest, false⟩

/-- `(v == 0 && val == ptr) || *ptr != '\0'`, for the variable that the value has been put in. -/
def Conversion.other (c : Conversion) (v : Int) : Bool := (v == 0 && c.start) || !c.rest.isEmpty

/-- The loop over blanks stops at a minus sign. -/
def minusAhead (val : List Char) : Bool := (val.dropWhile Numeral.isspace).head? == some '-'

namespace ParserUtil

/-! ## Checks -/

/-- With the value that the second version of it stores. -/
def check_int32 (val : List Char) : Option Int :=
  let v := strtoll val
  if v.other v.value then none
  else if v.erange then none
  else if v.value > 2147483647 ∨ v.value < -2147483648 then none
  else some (i32 v.value)

def check_uint32 (val : List Char) : Option Int :=
  if minusAhead val then none
  else
    let v := strtoull val
    if v.other v.value then none
    else if v.erange then none
    else if v.value > 4294967295 then none
    else some (u32 v.value)

def check_int64 (val : List Char) : Bool :=
  let v := strtoll val
  if v.other v.value then false else if v.erange then false else true

/-- The value itself is returned, as an `int`. -/
def check_uint64 (val : List Char) : Int :=
  if minusAhead val then 0
  else
    let v := strtoull val
    if v.other v.value then 0
    else if v.erange then 0
    else if v.value > 18446744073709551615 then 0
    else i32 v.value

/-! ## Values -/

/-- An `int` is always one. -/
def get_int32 (val : List Char) : Except String Int :=
  let c := strtoll val
  let v := i32 c.value
  if c.other v then throw "Expected a 32-bit integer, but found other characters."
  else if c.erange then throw "The 32-bit integer value is out of range."
  else if v > 2147483647 ∨ v < -2147483648 then pure 0
  else pure v

def get_uint32 (val : List Char) : Except String Int :=
  if minusAhead val then throw "Expected an unsigned 32-bit integer, but found other characters."
  else
    let c := strtoull val
    let v := u32 c.value
    if c.other v then throw "Expected an unsigned 32-bit integer, but found other characters."
    else if c.erange then throw "The 32-bit integer value is out of range."
    else if v > 4294967295 then pure 0
    else pure v

def get_int64 (val : List Char) : Except String Int :=
  let v := strtoll val
  if v.other v.value then throw "Expected a 64-bit integer, but found other characters."
  else if v.erange then throw "The 64-bit integer value is out of range."
  else pure v.value

def get_uint64 (val : List Char) : Except String Int :=
  if minusAhead val then throw "Expected a valid array index."
  else
    let v := strtoull val
    if v.other v.value then throw "Expected an unsigned 64-bit integer, but found other characters."
    else if v.erange then throw "The 64-bit integer value is out of range."
    else pure v.value

/-! ## What they do -/

/-- Each check takes the integers of its type and each of the others gets them; the constant of a filter is the
integer, if 64 bits can hold it. -/
structure Exact (s : List Char) : Prop where
  check_int32 : ∀ v, check_int32 s = some v ↔ ∃ minus n, Denotes s minus n ∧ v = signed minus n ∧ -2 ^ 31 ≤ v ∧ v < 2 ^ 31
  check_uint32 : ∀ v, check_uint32 s = some v ↔ ∃ n, Denotes s false n ∧ v = n ∧ n < 2 ^ 32
  check_int64 : check_int64 s = true ↔ ∃ minus n, Denotes s minus n ∧ -2 ^ 63 ≤ signed minus n ∧ signed minus n < 2 ^ 63
  check_uint64 : check_uint64 s ≠ 0 ↔ ∃ n, Denotes s false n ∧ n < 2 ^ 64
  get_int32 : ∀ v, get_int32 s = .ok v ↔ ∃ minus n, Denotes s minus n ∧ v = signed minus n ∧ -2 ^ 31 ≤ v ∧ v < 2 ^ 31
  get_uint32 : ∀ v, get_uint32 s = .ok v ↔ ∃ n, Denotes s false n ∧ v = n ∧ n < 2 ^ 32
  get_int64 : ∀ v, get_int64 s = .ok v ↔ ∃ minus n, Denotes s minus n ∧ v = signed minus n ∧ -2 ^ 63 ≤ v ∧ v < 2 ^ 63
  get_uint64 : ∀ v, get_uint64 s = .ok v ↔ ∃ n, Denotes s false n ∧ v = n ∧ n < 2 ^ 64
  factory : ∀ minus n, Denotes s minus n → -2 ^ 63 ≤ signed minus n → signed minus n < 2 ^ 64 →
    ∃ t, D4RValueFactory s = .integer t (signed minus n)

section

variable {s : List Char} {minus : Bool} {n : Nat}

theorem minusAhead_of_denotes (denotes : Denotes s minus n) : minusAhead s = minus := by
  have ahead := (read_of_denotes denotes).2
  rw [minusAhead]
  cases minus with
  | true => exact beq_iff_eq.mpr (ahead.mpr rfl)
  | false => exact Bool.eq_false_iff.mpr fun same => Bool.false_ne_true (ahead.mp (beq_iff_eq.mp same))

/-- A conversion that is told to be of other characters, whatever variable the value has been put in. -/
theorem other_of_not_denotes (none_ : ∀ minus n, ¬Denotes s minus n) (f : Int → Int) (zero : f 0 = 0) :
    (strtoll s).other (f (strtoll s).value) = true ∧ (strtoull s).other (f (strtoull s).value) = true := by
  cases read : Numeral.read s with
  | none =>
      simp only [strtoll, strtoull, read, Conversion.other, zero]
      exact ⟨rfl, rfl⟩
  | some numeral =>
      have left : numeral.rest.isEmpty = false := by
        rw [List.isEmpty_eq_false_iff]
        intro ends
        apply none_ numeral.negative numeral.magnitude
        rw [← read_iff_denotes, read, ← ends]
      have left' : (strtoll s).rest = numeral.rest ∧ (strtoull s).rest = numeral.rest := by
        simp only [strtoll, strtoull, read]
        split_ifs <;> exact ⟨rfl, rfl⟩
      simp only [Conversion.other, left', left, Bool.not_false, Bool.or_true, and_self]

theorem other_of_denotes (denotes : Denotes s minus n) (v : Int) :
    (strtoll s).other v = false ∧ (strtoull s).other v = false := by
  have left : ((strtoll s).start = false ∧ (strtoll s).rest = []) ∧ (strtoull s).start = false ∧ (strtoull s).rest = [] := by
    simp only [strtoll, strtoull, (read_of_denotes denotes).1]
    split_ifs <;> exact ⟨⟨rfl, rfl⟩, rfl, rfl⟩
  simp only [Conversion.other, left, Bool.and_false, List.isEmpty_nil, Bool.not_true, Bool.or_self, and_self]

/-- In range the value is the integer, and out of range `errno` says so. -/
theorem strtoll_of_denotes (denotes : Denotes s minus n) :
    if -2 ^ 63 ≤ signed minus n ∧ signed minus n < 2 ^ 63 then (strtoll s).value = signed minus n ∧ (strtoll s).erange = false
    else (strtoll s).erange = true := by
  simp only [strtoll, (read_of_denotes denotes).1]
  split_ifs with inside low high low high <;> first | omega | rfl | exact ⟨rfl, rfl⟩

theorem strtoull_of_denotes (denotes : Denotes s false n) :
    if n < 2 ^ 64 then (strtoull s).value = n ∧ (strtoull s).erange = false else (strtoull s).erange = true := by
  simp only [strtoull, (read_of_denotes denotes).1]
  split_ifs with inside high high
  · omega
  · exact ⟨congrArg Nat.cast (u64_ofNat inside), rfl⟩
  · rfl
  · omega

theorem check_int32_eq (denotes : Denotes s minus n) : check_int32 s =
    if -2 ^ 31 ≤ signed minus n ∧ signed minus n < 2 ^ 31 then some (signed minus n) else none := by
  have value := strtoll_of_denotes denotes
  simp only [check_int32, (other_of_denotes denotes _).1, Bool.false_eq_true, if_false]
  split at value
  · simp only [value.1, value.2, Bool.false_eq_true, if_false]
    split_ifs with outside inside inside
    · omega
    · rfl
    · rw [i32_of_fits ⟨inside.1, inside.2⟩]
    · omega
  · rw [value, if_pos rfl, if_neg (by omega)]

theorem check_uint32_eq (denotes : Denotes s minus n) : check_uint32 s =
    if minus = false ∧ n < 2 ^ 32 then some (n : Int) else none := by
  rw [check_uint32, minusAhead_of_denotes denotes]
  cases minus with
  | true => rfl
  | false =>
      have value := strtoull_of_denotes denotes
      simp only [(other_of_denotes denotes _).2, Bool.false_eq_true, if_false, true_and]
      split at value
      · simp only [value.1, value.2, Bool.false_eq_true, if_false]
        split_ifs with outside inside inside
        · omega
        · rfl
        · rw [u32_of_lt inside]
        · omega
      · rw [value, if_pos rfl, if_neg (by omega)]

theorem check_int64_eq (denotes : Denotes s minus n) : check_int64 s =
    decide (-2 ^ 63 ≤ signed minus n ∧ signed minus n < 2 ^ 63) := by
  have value := strtoll_of_denotes denotes
  simp only [check_int64, (other_of_denotes denotes _).1, Bool.false_eq_true, if_false]
  split at value
  · rename_i inside
    rw [value.2, decide_eq_true inside]
    rfl
  · rename_i outside
    rw [value, decide_eq_false outside]
    rfl

/-- A multiple of `2 ^ 32` is no `int` but zero. -/
theorem check_uint64_eq (denotes : Denotes s minus n) : check_uint64 s =
    if minus = false ∧ n < 2 ^ 64 then i32 n else 0 := by
  rw [check_uint64, minusAhead_of_denotes denotes]
  cases minus with
  | true => rfl
  | false =>
      have value := strtoull_of_denotes denotes
      simp only [(other_of_denotes denotes _).2, Bool.false_eq_true, if_false, true_and]
      split at value
      · rename_i inside
        simp only [value.1, value.2, Bool.false_eq_true, if_false, if_pos inside]
        split_ifs with outside
        · omega
        · rfl
      · rename_i outside
        rw [value, if_neg outside]
        rfl

/-- What an `int` can hold of a 64-bit integer. -/
theorem get_int32_eq (denotes : Denotes s minus n) : get_int32 s =
    if -2 ^ 63 ≤ signed minus n ∧ signed minus n < 2 ^ 63 then .ok (i32 (signed minus n))
    else .error "The 32-bit integer value is out of range." := by
  have value := strtoll_of_denotes denotes
  simp only [get_int32, (other_of_denotes denotes _).1, Bool.false_eq_true, if_false]
  split at value
  · rename_i inside
    have fits := i32_fits (signed minus n)
    unfold FitsI32 at fits
    simp only [value.1, value.2, Bool.false_eq_true, if_false, if_pos inside]
    split_ifs with outside
    · omega
    · rfl
  · rename_i outside
    rw [value, if_neg outside]
    rfl

theorem get_uint32_eq (denotes : Denotes s false n) : get_uint32 s =
    if n < 2 ^ 64 then .ok (u32 n : Int) else .error "The 32-bit integer value is out of range." := by
  have value := strtoull_of_denotes denotes
  simp only [get_uint32, minusAhead_of_denotes denotes, (other_of_denotes denotes _).2, Bool.false_eq_true, if_false]
  split at value
  · rename_i inside
    have fits := u32_lt (n : Int)
    simp only [value.1, value.2, Bool.false_eq_true, if_false, if_pos inside]
    split_ifs with outside
    · omega
    · rfl
  · rename_i outside
    rw [value, if_neg outside]
    rfl

theorem get_int64_eq (denotes : Denotes s minus n) : get_int64 s =
    if -2 ^ 63 ≤ signed minus n ∧ signed minus n < 2 ^ 63 then .ok (signed minus n)
    else .error "The 64-bit integer value is out of range." := by
  have value := strtoll_of_denotes denotes
  simp only [get_int64, (other_of_denotes denotes _).1, Bool.false_eq_true, if_false]
  split at value
  · rename_i inside
    simp only [value.1, value.2, Bool.false_eq_true, if_false, if_pos inside]
    rfl
  · rename_i outside
    rw [value, if_neg outside]
    rfl

theorem get_uint64_eq (denotes : Denotes s false n) : get_uint64 s =
    if n < 2 ^ 64 then .ok (n : Int) else .error "The 64-bit integer value is out of range." := by
  have value := strtoull_of_denotes denotes
  simp only [get_uint64, minusAhead_of_denotes denotes, (other_of_denotes denotes _).2, Bool.false_eq_true, if_false]
  split at value
  · rename_i inside
    simp only [value.1, value.2, Bool.false_eq_true, if_false, if_pos inside]
    rfl
  · rename_i outside
    rw [value, if_neg outside]
    rfl

/-- Behind a minus sign there is nothing unsigned. -/
theorem refused_minus (denotes : Denotes s true n) : (∃ message, get_uint32 s = .error message) ∧
    ∃ message, get_uint64 s = .error message := by
  simp only [get_uint32, get_uint64, minusAhead_of_denotes denotes, if_true]
  exact ⟨⟨_, rfl⟩, _, rfl⟩

theorem exists_iff (denotes : Denotes s minus n) {P : Bool → Nat → Prop} :
    (∃ minus n, Denotes s minus n ∧ P minus n) ↔ P minus n := by
  constructor
  · rintro ⟨minus', n', denotes', holds⟩
    obtain ⟨rfl, rfl⟩ := denotes.unique denotes'
    exact holds
  · intro holds
    exact ⟨minus, n, denotes, holds⟩

theorem exists_unsigned_iff (denotes : Denotes s minus n) {P : Nat → Prop} :
    (∃ n, Denotes s false n ∧ P n) ↔ minus = false ∧ P n := by
  constructor
  · rintro ⟨n', denotes', holds⟩
    obtain ⟨rfl, rfl⟩ := denotes.unique denotes'
    exact ⟨rfl, holds⟩
  · rintro ⟨rfl, holds⟩
    exact ⟨n, denotes, holds⟩

/-- What stands for no integer is refused. -/
theorem exact_of_not_denotes (none_ : ∀ minus n, ¬Denotes s minus n) : Exact s := by
  have signed_ := fun f zero => (other_of_not_denotes none_ f zero).1
  have unsigned := fun f zero => (other_of_not_denotes none_ f zero).2
  have id_ := signed_ id rfl
  have id_' := unsigned id rfl
  have narrow := signed_ i32 rfl
  have narrow' := unsigned (fun v => (u32 v : Int)) rfl
  simp only [id] at id_ id_'
  have absent {P : Bool → Nat → Prop} : ¬∃ minus n, Denotes s minus n ∧ P minus n :=
    fun ⟨minus, n, denotes, _⟩ => none_ minus n denotes
  have absent' {P : Nat → Prop} : ¬∃ n, Denotes s false n ∧ P n := fun ⟨n, denotes, _⟩ => none_ false n denotes
  constructor
  · intro v
    simp only [check_int32, id_, if_true, absent, reduceCtorEq]
  · intro v
    simp only [check_uint32, id_', if_true, absent', ite_self, reduceCtorEq]
  · simp only [check_int64, id_, if_true, absent, Bool.false_eq_true]
  · simp only [check_uint64, id_', if_true, absent', ite_self, ne_eq, not_true_eq_false]
  · intro v
    simp only [get_int32, narrow, if_true, absent, iff_false]
    exact fun same => by cases same
  · intro v
    simp only [get_uint32, narrow', if_true, absent', ite_self, iff_false]
    exact fun same => by cases same
  · intro v
    simp only [get_int64, id_, if_true, absent, iff_false]
    exact fun same => by cases same
  · intro v
    simp only [get_uint64, id_', if_true, absent', iff_false]
    split <;> exact fun same => by cases same
  · intro minus n denotes
    exact absurd denotes (none_ minus n)

theorem some_iff {P : Prop} [Decidable P] {w v : Int} : (if P then some w else none) = some v ↔ v = w ∧ P := by
  split
  · rename_i holds
    exact ⟨fun same => ⟨(Option.some.inj same).symm, holds⟩, fun both => congrArg some both.1.symm⟩
  · rename_i fails
    exact iff_of_false (fun same => by cases same) fun both => fails both.2

theorem ok_iff {P : Prop} [Decidable P] {w v : Int} {message : String} :
    (if P then Except.ok w else .error message) = .ok v ↔ v = w ∧ P := by
  split
  · rename_i holds
    exact ⟨fun same => ⟨(Except.ok.inj same).symm, holds⟩, fun both => congrArg Except.ok both.1.symm⟩
  · rename_i fails
    exact iff_of_false (fun same => by cases same) fun both => fails both.2

/-- Five of the functions, and the constant of a filter but for the multiples of `2 ^ 32`, are exact for every
integer. The other three put a wide value in a narrow variable. -/
theorem exact_of_narrow (denotes : Denotes s minus n) (wide : minus = false ∧ n < 2 ^ 64 → i32 n ≠ 0)
    (int : -2 ^ 63 ≤ signed minus n ∧ signed minus n < 2 ^ 63 → -2 ^ 31 ≤ signed minus n ∧ signed minus n < 2 ^ 31)
    (uint : minus = false ∧ n < 2 ^ 64 → n < 2 ^ 32) : Exact s := by
  constructor
  · intro v
    rw [exists_iff denotes, check_int32_eq denotes, some_iff]
    exact and_congr_right fun same => by rw [same]
  · intro v
    rw [exists_unsigned_iff denotes, check_uint32_eq denotes, some_iff]
    exact and_left_comm
  · rw [exists_iff denotes, check_int64_eq denotes, decide_eq_true_eq]
  · rw [exists_unsigned_iff denotes, check_uint64_eq denotes]
    split
    · rename_i inside
      exact iff_of_true (wide inside) inside
    · rename_i outside
      exact iff_of_false (fun some_ => some_ rfl) outside
  · intro v
    rw [exists_iff denotes, get_int32_eq denotes, ok_iff]
    constructor
    · rintro ⟨same, inside⟩
      have fits := int inside
      rw [i32_of_fits ⟨fits.1, fits.2⟩] at same
      exact ⟨same, same ▸ fits⟩
    · rintro ⟨rfl, fits⟩
      exact ⟨(i32_of_fits ⟨fits.1, fits.2⟩).symm, by omega⟩
  · intro v
    rw [exists_unsigned_iff denotes]
    cases minus with
    | true =>
        obtain ⟨⟨message, refused⟩, -⟩ := refused_minus denotes
        rw [refused]
        exact iff_of_false (fun same => by cases same) fun both => by cases both.1
    | false =>
        rw [get_uint32_eq denotes, ok_iff]
        constructor
        · rintro ⟨same, inside⟩
          have small := uint ⟨rfl, inside⟩
          rw [u32_of_lt small] at same
          exact ⟨rfl, same, small⟩
        · rintro ⟨-, same, small⟩
          exact ⟨by rw [u32_of_lt small, same], by omega⟩
  · intro v
    rw [exists_iff denotes, get_int64_eq denotes, ok_iff]
    exact and_congr_right fun same => by rw [same]
  · intro v
    rw [exists_unsigned_iff denotes]
    cases minus with
    | true =>
        obtain ⟨-, message, refused⟩ := refused_minus denotes
        rw [refused]
        exact iff_of_false (fun same => by cases same) fun both => by cases both.1
    | false =>
        rw [get_uint64_eq denotes, ok_iff]
        exact ⟨fun both => ⟨rfl, both⟩, fun both => both.2⟩
  · intro minus' n' denotes' least bound
    obtain ⟨rfl, rfl⟩ := denotes.unique denotes'
    have small : signed minus n < 2 ^ 63 := by
      cases minus with
      | true =>
          simp only [signed, if_true]
          omega
      | false =>
          have inside := uint ⟨rfl, by simpa [signed] using bound⟩
          simp only [signed, Bool.false_eq_true, if_false]
          omega
    have read : integerOf s = some (signed minus n) := by
      rw [integerOf, (read_of_denotes denotes).1]
      rfl
    have taken : Dap4.check_int64 s = true := by rw [Dap4.check_int64_eq ⟨read, least, bound⟩, decide_eq_true small]
    unfold D4RValueFactory
    rw [read, Option.getD_some, if_pos taken]
    split
    · exact ⟨_, rfl⟩
    · exact ⟨_, rfl⟩

end

/-- Everything about a text is exact when it stands for no integer, for a positive one of 31 bits or one that 64 bits
cannot hold, or has a minus sign and is an `int` or too small for 64 bits. -/
theorem exact_iff (s : List Char) : Exact s ↔
    ∀ minus n, Denotes s minus n → if minus then n ≤ 2 ^ 31 ∨ 2 ^ 63 < n else 0 < n ∧ n < 2 ^ 31 ∨ 2 ^ 64 ≤ n := by
  by_cases none_ : ∀ minus n, ¬Denotes s minus n
  · exact iff_of_true (exact_of_not_denotes none_) fun minus n denotes => absurd denotes (none_ minus n)
  · simp only [not_forall, not_not] at none_
    obtain ⟨minus, n, denotes⟩ := none_
    constructor
    · intro exact_ minus n denotes
      have narrow : -2 ^ 63 ≤ signed minus n ∧ signed minus n < 2 ^ 63 → -2 ^ 31 ≤ signed minus n ∧ signed minus n < 2 ^ 31 := by
        intro inside
        have got := get_int32_eq denotes
        rw [if_pos inside] at got
        have fits := (exists_iff denotes).mp ((exact_.get_int32 _).mp got)
        rw [fits.1] at fits
        exact fits.2
      cases minus with
      | true =>
          simp only [signed, if_true] at narrow ⊢
          omega
      | false =>
          simp only [signed, Bool.false_eq_true, if_false] at narrow ⊢
          by_cases large : 2 ^ 64 ≤ n
          · exact .inr large
          · have got := get_uint32_eq denotes
            rw [if_pos (by omega)] at got
            obtain ⟨-, same, small⟩ := (exists_unsigned_iff denotes).mp ((exact_.get_uint32 _).mp got)
            have taken := exact_.check_uint64.mpr ⟨n, denotes, by omega⟩
            rw [check_uint64_eq denotes, if_pos ⟨rfl, by omega⟩] at taken
            have some_ : n ≠ 0 := by
              rintro rfl
              exact taken rfl
            omega
    · intro fits
      have fits := fits minus n denotes
      cases minus with
      | true =>
          simp only [if_true] at fits
          apply exact_of_narrow denotes
          · rintro ⟨plain, -⟩
            cases plain
          · simp only [signed, if_true]
            omega
          · rintro ⟨plain, -⟩
            cases plain
      | false =>
          simp only [Bool.false_eq_true, if_false] at fits
          apply exact_of_narrow denotes
          · rintro ⟨-, inside⟩
            rw [i32_ofNat_of_lt (by omega)]
            omega
          · simp only [signed, Bool.false_eq_true, if_false]
            omega
          · omega

/-- Zero is refused by `check_uint64`. -/
theorem zero_refused : ¬∀ s, Exact s := by
  intro all
  have fits := (exact_iff ['0']).mp (all _) false 0 ⟨[], [], ['0'], rfl, List.forall_mem_nil _, .inl rfl, .octal .nil⟩
  revert fits
  decide

end ParserUtil

end Libdap.Dap4
