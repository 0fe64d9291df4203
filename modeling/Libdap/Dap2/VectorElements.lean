import Libdap.Dap2.VectorCapacity
import Libdap.Foundation.Splice
import Mathlib.Data.List.TakeWhile

/-! # Elements of a vector by their places

A vector is put together from others, one behind the other, and elements are taken from places
that a list names.
-/

namespace Libdap.Dap2

open Ints

namespace Vector

variable {α β : Type}

/-! ## Aggregation -/

/-- The calls of `set_value_slice_from_row_major_vector`, each with what the last one gives for the next free element. -/
def aggregate (v : Vector α) (startElement : Nat) : List (Vector α) → Outcome (Vector α)
  | [] => .done v
  | row :: rows =>
    (v.set_value_slice_from_row_major_vector row startElement).andThen fun v =>
      aggregate v (startElement + u32 row.length) rows

/-- The count of the elements of a vector that has been set. -/
def count (v : Vector α) : Nat := v.length.toNat

/-- The bytes of the elements. -/
def bytes (c : Cardinal) (v : Vector α) : List UInt8 := (v.buf.getD []).take (v.count * c.width)

def strings (v : Vector α) : List String := v.str.take v.count

def total (rows : List (Vector α)) : Nat := (rows.map count).sum

/-- A vector of elements of a type that have been read, with the storage that they are in. -/
structure Source (proto : ElementType) (v : Vector α) : Prop where
  type : v.proto = some proto
  readP : v.readP = true
  length : 0 ≤ v.length ∧ v.length < 2 ^ 31
  capacity : v.length ≤ v.capacity
  bytes : ∀ c, proto.stored = some c → v.count * c.width ≤ (v.buf.getD []).length
  strings : proto.isString = true → v.count ≤ v.str.length

/-- The vector holds the elements of others, one behind the other. -/
def Concatenates (proto : ElementType) (v : Vector α) (rows : List (Vector α)) : Prop :=
  match proto.stored with
  | some c => (v.buf.getD []).take (total rows * c.width) = rows.flatMap (bytes c)
  | none =>
    if proto.isString then v.str.take (total rows) = rows.flatMap strings
    else v.compoundBuf.take (total rows) = rows.flatMap fun r => r.compoundBuf.take r.count

/-- Nothing but the elements from one place to another has changed. -/
structure Within (proto : ElementType) (start stop : Nat) (v v' : Vector α) : Prop where
  length : v'.length = v.length
  type : v'.proto = v.proto
  compoundBuf : v'.compoundBuf = v.compoundBuf
  capacity : v'.capacity = v.capacity
  readP : v'.readP = v.readP
  bytes : ∀ c, proto.stored = some c → ∀ k, k < start * c.width ∨ stop * c.width ≤ k →
    (v'.buf.getD [])[k]? = (v.buf.getD [])[k]?
  strings : ∀ k, k < start ∨ stop ≤ k → v'.str[k]? = v.str[k]?

/-- Every call changes the elements that it is for, and no others. -/
def Framed (proto : ElementType) (v : Vector α) (start : Nat) : List (Vector α) → Prop
  | [] => True
  | row :: rows => ∀ v', v.set_value_slice_from_row_major_vector row start = .done v' →
    Within proto start (start + row.count) v v' ∧ Framed proto v' (start + row.count) rows

/-- The vector is put together from others. -/
def Aggregates (proto : ElementType) (v : Vector α) (rows : List (Vector α)) : Prop :=
  (∃ v', v.aggregate 0 rows = .done v' ∧ Concatenates proto v' rows) ∧ Framed proto v 0 rows

/-- There is room for the elements: numbers and enumerations need a buffer in every vector, bytes are counted with
    32 bits and those that are copied at one time with an `int`; strings have to be there already; and variables are not copied. -/
def Room (proto : ElementType) (v : Vector α) (n : Nat) (rows : List (Vector α)) : Prop :=
  match proto.stored with
  | some c => (rows ≠ [] → n ≠ 0) ∧ (∀ row ∈ rows, row.buf ≠ none ∧ row.count * c.width < 2 ^ 31) ∧
      total rows * c.width ≤ u32 ((c.width * n : Nat) : Int)
  | none => if proto.isString then total rows ≤ v.str.length else rows = []

section

variable {proto : ElementType} {v v' row : Vector α} {rows : List (Vector α)} {start : Nat}

theorem length_eq (source : Source proto row) : row.length = (row.count : Int) := (Int.toNat_of_nonneg source.length.1).symm

@[simp]
theorem total_nil : total ([] : List (Vector α)) = 0 := rfl

theorem total_cons (row : Vector α) (rows : List (Vector α)) : total (row :: rows) = row.count + total rows := by
  rw [total, List.map_cons, List.sum_cons, total]

/-- The checks let a source through for which the capacity has room. -/
theorem slice_eq (type : v.proto = some proto) (source : Source proto row) (bound : v.capacity < 2 ^ 32)
    (room : start + row.count ≤ v.capacity) :
    v.set_value_slice_from_row_major_vector row start =
      match proto.stored with
      | some c => v.copyBytes row c.width start
      | none =>
        if proto.isString then v.copyStrings row start
        else
          .threw v ("set_value_slice_from_row_major_vector:" ++
            "Unimplemented method for Vectors of type: array, opaque, structure, " ++ "sequence or grid.") := by
  have same : proto.sameType proto = true := by
    cases proto <;> simp [ElementType.sameType]
  have length := length_eq source
  have few := source.length.2
  have full := source.capacity
  have whole : u32 row.length = row.count := by
    rw [length]
    exact u32_of_lt (by omega)
  have stop : u32 (start + row.length) = start + row.count := by
    rw [length, ← Nat.cast_add]
    exact u32_of_lt (by omega)
  unfold set_value_slice_from_row_major_vector
  simp only [type, source.type, same, source.readP, whole, stop]
  refine (if_neg (by decide)).trans ((if_neg (by decide)).trans ?_)
  refine (if_neg (by omega)).trans ((if_neg (by omega)).trans ((if_neg (by omega)).trans ?_))
  cases proto.stored <;> rfl

theorem u32_length (source : Source proto row) : u32 row.length = row.count := by
  have few := source.length.2
  rw [length_eq source] at few ⊢
  exact u32_of_lt (by omega)

theorem total_append (front back : List (Vector α)) : total (front ++ back) = total front + total back := by
  rw [total, List.map_append, List.sum_append, total, total]

theorem count_le_total (mem : row ∈ rows) : row.count ≤ total rows := by
  obtain ⟨front, back, rfl⟩ := List.append_of_mem mem
  rw [total_append, total_cons]
  omega

/-- What every call does, the calls do together. -/
theorem aggregate_of {P : List (Vector α) → Vector α → Prop} {front : List (Vector α)}
    (sources : ∀ row ∈ rows, Source proto row)
    (step : ∀ done row back v, front ++ rows = done ++ row :: back → row ∈ rows → P done v →
      ∃ v', v.set_value_slice_from_row_major_vector row (total done) = .done v' ∧ P (done ++ [row]) v' ∧
        Within proto (total done) (total done + row.count) v v') (start : P front v) :
    ∃ v', v.aggregate (total front) rows = .done v' ∧ P (front ++ rows) v' ∧ Framed proto v (total front) rows := by
  induction rows generalizing v front with
  | nil => exact ⟨v, rfl, by rw [List.append_nil]; exact start, trivial⟩
  | cons row rows ih =>
      rw [List.forall_mem_cons] at sources
      obtain ⟨source, sources⟩ := sources
      obtain ⟨w, first, next, within⟩ := step front row rows v rfl List.mem_cons_self start
      have place : total (front ++ [row]) = total front + row.count := by
        rw [total_append, total_cons, total_nil, Nat.add_zero]
      obtain ⟨v', rest, all, framed⟩ := ih sources (fun done row' back v same mem =>
        step done row' back v (by rw [← same, List.append_assoc]; rfl) (List.mem_cons_of_mem _ mem)) next
      rw [place] at rest framed
      refine ⟨v', ?_, by rw [List.append_assoc] at all; exact all, ?_⟩
      · rw [aggregate, first, Outcome.andThen, u32_length source, rest]
      · intro w' again
        rw [first] at again
        cases again
        exact ⟨within, framed⟩

/-- What every call keeps, the calls keep together. -/
theorem of_aggregate {P R : Vector α → Prop} (sources : ∀ row ∈ rows, Source proto row)
    (step : ∀ v v' row start, P v → Source proto row → start + row.count ≤ v.capacity →
      v.set_value_slice_from_row_major_vector row start = .done v' → P v' ∧ v'.capacity = v.capacity ∧ R row)
    (room : start + total rows ≤ v.capacity) (first : P v) (done : v.aggregate start rows = .done v') :
    P v' ∧ ∀ row ∈ rows, R row := by
  induction rows generalizing v start with
  | nil =>
      cases done
      exact ⟨first, fun _ mem => absurd mem List.not_mem_nil⟩
  | cons row rows ih =>
      rw [List.forall_mem_cons] at sources
      obtain ⟨source, sources⟩ := sources
      rw [total_cons] at room
      rw [aggregate] at done
      cases taken : v.set_value_slice_from_row_major_vector row start with
      | done w =>
          rw [taken, Outcome.andThen, u32_length source] at done
          obtain ⟨kept, capacity, here⟩ := step v w row start first source (by omega) taken
          obtain ⟨last, others⟩ := ih sources (by rw [capacity]; omega) kept done
          exact ⟨last, List.forall_mem_cons.mpr ⟨here, others⟩⟩
      | threw w message =>
          rw [taken] at done
          cases done
      | undefined =>
          rw [taken] at done
          cases done

/-! ## Numbers -/

def setBuf (v : Vector α) (b : List UInt8) : Vector α := { v with buf := some b }

/-- A slice that is copied leaves the size of the buffer. -/
theorem of_copyBytes {c : Cardinal} (done : v.copyBytes row c.width start = .done v') :
    v.buf ≠ none ∧ row.buf ≠ none ∧ 0 ≤ i32 row.width ∧
      ∃ b, v' = v.setBuf b ∧ b.length = (v.buf.getD []).length := by
  unfold copyBytes at done
  split at done
  · cases done
  · cases done
  · rename_i b from_ buf buf'
    simp only at done
    split at done
    · cases done
    · rename_i inside
      split at done
      · cases done
      · rename_i b' copied
        have length := length_memcpy copied
        cases done
        cases b' with
        | none => cases length
        | some b' =>
            simp only [Option.map_some, Option.some.injEq] at length
            exact ⟨by rw [buf]; simp, by rw [buf']; simp, by omega, b', rfl, by rw [buf]; exact length⟩


section

variable {c : Cardinal} (kind : proto.stored = some c)

include kind

theorem length_bytes (source : Source proto row) : (bytes c row).length = row.count * c.width := by
  rw [bytes, List.length_take, Nat.min_eq_left (source.bytes c kind)]

theorem width_eq (source : Source proto row) (counted : row.count * c.width < 2 ^ 32) : row.width = row.count * c.width := by
  have stored : row.stored = some c := by rw [stored, source.type]; exact kind
  rw [width, stored, Option.map_some, Option.getD_some, length_eq source]
  exact u32_of_lt counted

theorem copyBytes_eq (source : Source proto row) {b from_ : List UInt8} (buf : v.buf = some b) (buf' : row.buf = some from_)
    (counted : row.count * c.width < 2 ^ 31) (fits : (start + row.count) * c.width ≤ b.length) (small : b.length < 2 ^ 32) :
    v.copyBytes row c.width start = .done (v.setBuf (splice b (start * c.width) (bytes c row))) := by
  have width := width_eq kind source (by omega)
  have copied : i32 row.width = (row.count * c.width : Nat) := by
    rw [width]
    exact i32_ofNat_of_lt counted
  have present := source.bytes c kind
  have held := length_bytes kind source
  rw [buf', Option.getD_some] at present
  rw [bytes, buf', Option.getD_some] at held
  rw [Nat.add_mul] at fits
  have place : u32 ((start * c.width : Nat) : Int) = start * c.width := u32_of_lt (by omega)
  have copies : memcpy (some b) (start * c.width) (from_.take (row.count * c.width)) =
      some (some (splice b (start * c.width) (from_.take (row.count * c.width)))) := by
    unfold memcpy
    split
    · rename_i none_
      rw [none_, splice_nil]
    · simp only
      rw [if_pos (by omega), splice]
  unfold copyBytes
  simp only [buf, buf', copied, place, Int.toNat_natCast, copies]
  rw [if_neg (by omega), bytes, buf', Option.getD_some]
  rfl

theorem length_flatMap_bytes (sources : ∀ row ∈ rows, Source proto row) :
    (rows.flatMap (bytes c)).length = total rows * c.width := by
  induction rows with
  | nil => simp [total]
  | cons row rows ih =>
      rw [List.forall_mem_cons] at sources
      rw [List.flatMap_cons, List.length_append, length_bytes kind sources.1, ih sources.2, total_cons, Nat.add_mul]

theorem aggregate_bytes (type : v.proto = some proto) (sources : ∀ row ∈ rows, Source proto row)
    (bound : v.capacity < 2 ^ 32) (room : total rows ≤ v.capacity) {b : List UInt8} (buf : v.buf = some b)
    (each : ∀ row ∈ rows, row.buf ≠ none ∧ row.count * c.width < 2 ^ 31)
    (fits : total rows * c.width ≤ b.length) (small : b.length < 2 ^ 32) :
    v.aggregate 0 rows = .done (v.setBuf (splice b 0 (rows.flatMap (bytes c)))) ∧ Framed proto v 0 rows := by
  obtain ⟨v', done, rfl, framed⟩ : ∃ v', v.aggregate 0 rows = .done v' ∧
      v' = v.setBuf (splice b 0 (rows.flatMap (bytes c))) ∧ Framed proto v 0 rows := by
    refine @aggregate_of _ _ _ _ (fun done w => w = v.setBuf (splice b 0 (done.flatMap (bytes c)))) []
      sources ?_ (by rw [List.flatMap_nil, splice_nil, setBuf, ← buf])
    rintro done row back w same mem rfl
    rw [List.nil_append] at same
    rw [same, total_append, total_cons] at room fits
    obtain ⟨from_, buf'⟩ := Option.ne_none_iff_exists'.mp (each row mem).1
    have before : ∀ r ∈ done, Source proto r := fun r inside => sources r (by rw [same]; exact List.mem_append_left _ inside)
    have source := sources row mem
    have length := length_flatMap_bytes kind before
    have place : 0 + (done.flatMap (bytes c)).length = total done * c.width := by rw [length, Nat.zero_add]
    have here : (total done + row.count) * c.width ≤ b.length := le_trans (Nat.mul_le_mul_right _ (by omega)) fits
    have start : total done * c.width ≤ b.length := le_trans (Nat.mul_le_mul_right _ (by omega)) fits
    have kept : (splice b 0 (done.flatMap (bytes c))).length = b.length := length_splice (by rw [place]; exact start)
    have inside : total done * c.width + (bytes c row).length ≤ (splice b 0 (done.flatMap (bytes c))).length := by
      rw [length_bytes kind source, kept, ← Nat.add_mul]
      exact here
    refine ⟨_, ?_, rfl, rfl, rfl, rfl, rfl, rfl, ?_, fun _ _ => rfl⟩
    · rw [slice_eq (v := v.setBuf _) type source bound (show _ ≤ v.capacity by omega), kind]
      simp only
      rw [copyBytes_eq kind source rfl buf' (each row mem).2 (by rw [kept]; exact here) (by rw [kept]; exact small),
        List.flatMap_append, List.flatMap_singleton, ← splice_splice (by rw [place]; exact start), place]
      rfl
    · intro c' kind' k outside
      obtain rfl := Option.some.inj (kind.symm.trans kind')
      rw [setBuf, setBuf, Option.getD_some, Option.getD_some, List.flatMap_append, List.flatMap_singleton,
        ← splice_splice (by rw [place]; exact start), place]
      rcases outside with ahead | behind
      · exact getElem?_splice_before inside ahead
      · exact getElem?_splice_behind inside (by rw [length_bytes kind source, ← Nat.add_mul]; exact behind)
  exact ⟨done, framed⟩

theorem of_aggregate_bytes (type : v.proto = some proto) (sources : ∀ row ∈ rows, Source proto row)
    (bound : v.capacity < 2 ^ 32) (room : total rows ≤ v.capacity) (done : v.aggregate 0 rows = .done v') :
    (v'.buf.getD []).length = (v.buf.getD []).length ∧
      ∀ row ∈ rows, v.buf ≠ none ∧ row.buf ≠ none ∧ 0 ≤ i32 row.width := by
  have step : ∀ (w w' row : Vector α) (start : Nat), (w.proto = some proto ∧ w.capacity < 2 ^ 32 ∧
        (w.buf.getD []).length = (v.buf.getD []).length ∧ (w.buf = none ↔ v.buf = none)) → Source proto row →
      start + row.count ≤ w.capacity → w.set_value_slice_from_row_major_vector row start = .done w' →
      (w'.proto = some proto ∧ w'.capacity < 2 ^ 32 ∧ (w'.buf.getD []).length = (v.buf.getD []).length ∧
        (w'.buf = none ↔ v.buf = none)) ∧ w'.capacity = w.capacity ∧ v.buf ≠ none ∧ row.buf ≠ none ∧ 0 ≤ i32 row.width := by
    rintro w w' row start ⟨type', bound', length, null⟩ source room' taken
    rw [slice_eq type' source bound' room', kind] at taken
    obtain ⟨buf, buf', nonneg, b, rfl, length'⟩ := of_copyBytes taken
    have some_ : v.buf ≠ none := fun none_ => buf (null.mpr none_)
    exact ⟨⟨type', bound', length'.trans length, by simp [setBuf, some_]⟩, rfl, some_, buf', nonneg⟩
  obtain ⟨⟨-, -, length, -⟩, each⟩ := of_aggregate sources step (by rw [Nat.zero_add]; exact room)
    ⟨type, bound, rfl, Iff.rfl⟩ done
  exact ⟨length, each⟩

end

/-! ## Strings -/

def setStr (v : Vector α) (str : List String) : Vector α := { v with str }

theorem foldl_set {l from_ : List String} (n : Nat) (fits : start + n ≤ l.length) (present : n ≤ from_.length)
    (bound : start + n < 2 ^ 32) :
    (List.range n).foldl (fun str i => str.set (u32 ((start + i : Nat) : Int)) (from_.getD i "")) l =
      splice l start (from_.take n) := by
  induction n with
  | zero => rw [List.range_zero, List.foldl_nil, List.take_zero, splice_nil]
  | succ n ih =>
      have length : (from_.take n).length = n := by
        rw [List.length_take]
        omega
      have inside : start + (from_.take n).length ≤ l.length := by omega
      have next : from_.take (n + 1) = from_.take n ++ [from_.getD n ""] := by
        rw [List.take_succ_eq_append_getElem (by omega), List.getD_eq_getElem?_getD, List.getElem?_eq_getElem (by omega),
          Option.getD_some]
      rw [List.range_succ, List.foldl_append, List.foldl_cons, List.foldl_nil, ih (by omega) (by omega) (by omega),
        u32_of_lt (by omega), set_eq_splice (by rw [length_splice inside]; omega), next, ← splice_splice inside, length]

section

variable (kind : proto.isString = true)

include kind

theorem length_strings_eq (source : Source proto row) : (strings row).length = row.count := by
  rw [strings, List.length_take, Nat.min_eq_left (source.strings kind)]

theorem copyStrings_eq (source : Source proto row) (fits : start + row.count ≤ v.str.length)
    (bound : start + row.count < 2 ^ 32) : v.copyStrings row start = .done (v.setStr (splice v.str start (strings row))) := by
  have present := source.strings kind
  have inside : ∀ i ∈ List.range row.count, u32 ((start + i : Nat) : Int) < v.str.length ∧ i < row.str.length := by
    intro i mem
    have below := List.mem_range.mp mem
    rw [u32_of_lt (by omega)]
    exact ⟨by omega, by omega⟩
  unfold copyStrings
  simp only
  rw [show row.length.toNat = row.count from rfl, if_pos inside, foldl_set row.count fits present bound]
  rfl

omit kind in
theorem of_copyStrings (done : v.copyStrings row start = .done v') :
    ∃ str, v' = v.setStr str ∧ str.length = v.str.length := by
  unfold copyStrings at done
  simp only at done
  split at done
  · cases done
    exact ⟨_, rfl, length_strings ..⟩
  · cases done

theorem length_flatMap_strings (sources : ∀ row ∈ rows, Source proto row) : (rows.flatMap strings).length = total rows := by
  induction rows with
  | nil => rfl
  | cons row rows ih =>
      rw [List.forall_mem_cons] at sources
      rw [List.flatMap_cons, List.length_append, length_strings_eq kind sources.1, ih sources.2, total_cons]

theorem aggregate_strings (type : v.proto = some proto) (sources : ∀ row ∈ rows, Source proto row)
    (bound : v.capacity < 2 ^ 32) (room : total rows ≤ v.capacity) (fits : total rows ≤ v.str.length) :
    v.aggregate 0 rows = .done (v.setStr (splice v.str 0 (rows.flatMap strings))) ∧ Framed proto v 0 rows := by
  obtain ⟨v', done, rfl, framed⟩ : ∃ v', v.aggregate 0 rows = .done v' ∧
      v' = v.setStr (splice v.str 0 (rows.flatMap strings)) ∧ Framed proto v 0 rows := by
    refine @aggregate_of _ _ _ _ (fun done w => w = v.setStr (splice v.str 0 (done.flatMap strings))) []
      sources ?_ (by rw [List.flatMap_nil, splice_nil, setStr])
    rintro done row back w same mem rfl
    rw [List.nil_append] at same
    rw [same, total_append, total_cons] at room fits
    have before : ∀ r ∈ done, Source proto r := fun r inside => sources r (by rw [same]; exact List.mem_append_left _ inside)
    have source := sources row mem
    have length := length_flatMap_strings kind before
    have place : 0 + (done.flatMap strings).length = total done := by rw [length, Nat.zero_add]
    have start : 0 + (done.flatMap strings).length ≤ v.str.length := by omega
    have kept : (splice v.str 0 (done.flatMap strings)).length = v.str.length := length_splice start
    have inside : total done + (strings row).length ≤ (splice v.str 0 (done.flatMap strings)).length := by
      rw [length_strings_eq kind source, kept]
      omega
    refine ⟨_, ?_, rfl, rfl, rfl, rfl, rfl, rfl, ?_, ?_⟩
    · rw [slice_eq (v := v.setStr (splice v.str 0 (done.flatMap strings))) type source bound
        (show _ ≤ v.capacity by omega), stored_of_isString kind]
      simp only
      rw [if_pos kind, copyStrings_eq (v := v.setStr (splice v.str 0 (done.flatMap strings))) kind source
        (show _ ≤ List.length (splice _ _ _) by omega) (by omega), List.flatMap_append, List.flatMap_singleton, ← splice_splice start, place]
      rfl
    · exact fun _ _ _ _ => rfl
    · intro k outside
      rw [setStr, setStr, List.flatMap_append, List.flatMap_singleton, ← splice_splice start, place]
      rcases outside with ahead | behind
      · exact getElem?_splice_before inside ahead
      · exact getElem?_splice_behind inside (by rw [length_strings_eq kind source]; exact behind)
  exact ⟨done, framed⟩

theorem of_aggregate_strings (type : v.proto = some proto) (sources : ∀ row ∈ rows, Source proto row)
    (bound : v.capacity < 2 ^ 32) (room : total rows ≤ v.capacity) (done : v.aggregate 0 rows = .done v') :
    v'.str.length = v.str.length := by
  have step : ∀ (w w' row : Vector α) (start : Nat),
      (w.proto = some proto ∧ w.capacity < 2 ^ 32 ∧ w.str.length = v.str.length) → Source proto row →
      start + row.count ≤ w.capacity → w.set_value_slice_from_row_major_vector row start = .done w' →
      (w'.proto = some proto ∧ w'.capacity < 2 ^ 32 ∧ w'.str.length = v.str.length) ∧ w'.capacity = w.capacity ∧ True := by
    rintro w w' row start ⟨type', bound', length⟩ source room' taken
    rw [slice_eq type' source bound' room', stored_of_isString kind] at taken
    simp only at taken
    rw [if_pos kind] at taken
    obtain ⟨str, rfl, length'⟩ := of_copyStrings taken
    exact ⟨⟨type', bound', length'.trans length⟩, rfl, trivial⟩
  exact (of_aggregate sources step (by rw [Nat.zero_add]; exact room) ⟨type, bound, rfl⟩ done).1.2.2

end

/-! ## Any elements -/

theorem reserve_bytes {c : Cardinal} (kind : proto.stored = some c) (type : v.proto = some proto) (n : Nat) :
    v.reserve_value_capacity n = .done (v.withBuffer c n) := by
  have stored : v.stored = some c := by rw [Vector.stored, type]; exact kind
  rw [← create_eq stored, reserve_value_capacity, type]
  cases proto <;> first | rfl | cases kind

theorem reserve_others (kind : proto.stored = none) (type : v.proto = some proto) {n : Nat}
    (reserved : v.reserve_value_capacity n = .done v') : v' = { v with capacity := n } := by
  rw [reserve_value_capacity, type] at reserved
  cases proto with
  | cardinal c | dods_enum_c c => cases kind
  | dods_array_c => cases reserved
  | dods_str_c | dods_url_c | dods_opaque_c | dods_structure_c | dods_sequence_c | dods_grid_c =>
      cases reserved
      rw [type]

theorem aggregates_bytes_iff {c : Cardinal} (kind : proto.stored = some c) {n : Nat} (bound : n < 2 ^ 32)
    (type : v.proto = some proto) (sources : ∀ row ∈ rows, Source proto row) (few : total rows ≤ n) :
    Aggregates proto (v.withBuffer c n) rows ↔ Room proto v n rows := by
  have held : (((v.withBuffer c n).buf.getD []).length) = u32 ((c.width * n : Nat) : Int) := by
    rw [← length_withBuffer v c n]
    cases (v.withBuffer c n).buf <;> rfl
  have small : u32 ((c.width * n : Nat) : Int) < 2 ^ 32 := u32_lt _
  unfold Aggregates Concatenates Room
  rw [kind]
  simp only
  constructor
  · rintro ⟨⟨v', done, concat⟩, -⟩
    obtain ⟨length, each⟩ := of_aggregate_bytes (v := v.withBuffer c n) kind type sources bound few done
    have inside : total rows * c.width ≤ u32 ((c.width * n : Nat) : Int) := by
      have whole := congrArg List.length concat
      rw [List.length_take, length_flatMap_bytes kind sources, length, held] at whole
      omega
    refine ⟨fun some_ none_ => ?_, fun row mem => ⟨(each row mem).2.1, ?_⟩, inside⟩
    · obtain ⟨row, mem⟩ := List.exists_mem_of_ne_nil rows some_
      refine (each row mem).1 ?_
      rw [withBuffer, if_pos none_]
    · have part : row.count * c.width ≤ total rows * c.width :=
        Nat.mul_le_mul_right _ (count_le_total mem)
      have nonneg := (each row mem).2.2
      rw [width_eq kind (sources row mem) (by omega)] at nonneg
      by_contra large
      have negative := i32_wrapped (n := row.count * c.width) (by omega) (by omega)
      omega
  · rintro ⟨some_, each, inside⟩
    cases rows with
    | nil => exact ⟨⟨_, rfl, by rw [total_nil, Nat.zero_mul, List.take_zero, List.flatMap_nil]⟩, trivial⟩
    | cons row rows =>
        have buf : (v.withBuffer c n).buf = some (List.replicate (u32 ((c.width * n : Nat) : Int)) 0) := by
          rw [withBuffer, if_neg (some_ (List.cons_ne_nil _ _))]
        rw [← List.length_replicate (n := u32 ((c.width * n : Nat) : Int)) (a := (0 : UInt8))] at inside small
        obtain ⟨done, framed⟩ := aggregate_bytes (v := v.withBuffer c n) kind type sources bound few buf each inside small
        refine ⟨⟨_, done, ?_⟩, framed⟩
        have length := length_flatMap_bytes kind sources
        have whole := @take_splice _ (List.replicate (u32 ((c.width * n : Nat) : Int)) (0 : UInt8))
          ((row :: rows).flatMap (bytes c)) 0 (by rw [length, Nat.zero_add]; exact inside)
        rw [length, Nat.zero_add, List.take_zero, List.nil_append] at whole
        exact whole

theorem aggregates_strings_iff (kind : proto.isString = true) {n : Nat} (bound : n < 2 ^ 32) (type : v.proto = some proto)
    (sources : ∀ row ∈ rows, Source proto row) (few : total rows ≤ n) :
    Aggregates proto { v with capacity := n } rows ↔ Room proto v n rows := by
  unfold Aggregates Concatenates Room
  simp only [stored_of_isString kind, kind, ↓reduceIte]
  constructor
  · rintro ⟨⟨v', done, concat⟩, -⟩
    have length := of_aggregate_strings (v := { v with capacity := n }) kind type sources bound few done
    have whole := congrArg List.length concat
    rw [List.length_take, length_flatMap_strings kind sources, length] at whole
    simp only at whole
    omega
  · intro inside
    obtain ⟨done, framed⟩ := aggregate_strings (v := { v with capacity := n }) kind type sources bound few inside
    refine ⟨⟨_, done, ?_⟩, framed⟩
    have length := length_flatMap_strings kind sources
    have whole := @take_splice _ v.str (rows.flatMap strings) 0
      (by rw [length, Nat.zero_add]; exact inside)
    rw [length, Nat.zero_add, List.take_zero, List.nil_append] at whole
    exact whole

/-- A vector with a reserved capacity is put together from others exactly when there is room for them. -/
theorem aggregates_iff {v₀ : Vector α} {n : Nat} (bound : n < 2 ^ 32) (type : v₀.proto = some proto)
    (reserved : v₀.reserve_value_capacity n = .done v) (sources : ∀ row ∈ rows, Source proto row)
    (few : total rows ≤ n) : Aggregates proto v rows ↔ Room proto v₀ n rows := by
  cases kind : proto.stored with
  | some c =>
      rw [reserve_bytes kind type] at reserved
      cases reserved
      exact aggregates_bytes_iff kind bound type sources few
  | none =>
      cases kind' : proto.isString with
      | true =>
          obtain rfl := reserve_others kind type reserved
          exact aggregates_strings_iff kind' bound type sources few
      | false =>
          obtain rfl := reserve_others kind type reserved
          unfold Aggregates Concatenates Room
          simp only [kind, kind', Bool.false_eq_true, ↓reduceIte]
          constructor
          · rintro ⟨⟨v', done, -⟩, -⟩
            cases rows with
            | nil => rfl
            | cons row rows =>
                rw [List.forall_mem_cons] at sources
                rw [total_cons] at few
                rw [aggregate, slice_eq (v := { v₀ with capacity := n }) type sources.1 bound
                  (show 0 + row.count ≤ n by omega), kind] at done
                simp only at done
                rw [if_neg (by rw [kind']; decide)] at done
                cases done
          · rintro rfl
            exact ⟨⟨_, rfl, by rw [total_nil, List.take_zero, List.flatMap_nil]⟩, trivial⟩

end

/-! Three bytes from two vectors, and a string that a `reserve` has made no room for. -/

section

def byteRow (bs : List UInt8) : Vector Unit :=
  { length := bs.length, proto := some (.cardinal .dods_byte_c), buf := some bs, compoundBuf := [], str := [],
    capacity := bs.length, readP := true }

def stringRow (strs : List String) : Vector Unit :=
  { length := strs.length, proto := some .dods_str_c, buf := none, compoundBuf := [], str := strs,
    capacity := strs.length, readP := true }

private theorem byteRow_source (bs : List UInt8) (short : bs.length < 2 ^ 31) :
    Source (.cardinal .dods_byte_c) (byteRow bs) where
  type := rfl
  readP := rfl
  length := ⟨Int.natCast_nonneg _, by
    have length : (byteRow bs).length = bs.length := rfl
    omega⟩
  capacity := le_rfl
  bytes c kind := by
    cases kind
    exact (Nat.mul_one _).le
  strings kind := by cases kind

theorem threeBytes_aggregate :
    Aggregates (.cardinal .dods_byte_c) ((ofProto (some (.cardinal .dods_byte_c)) : Vector Unit).withBuffer .dods_byte_c 3)
      [byteRow [1, 2], byteRow [3]] := by
  refine (@aggregates_iff _ _ _ _ (ofProto (some (.cardinal .dods_byte_c))) 3 (by decide) rfl rfl ?_ (by decide)).mpr ?_
  · simp only [List.forall_mem_cons, List.not_mem_nil, IsEmpty.forall_iff, implies_true, and_true]
    exact ⟨byteRow_source _ (by decide), byteRow_source _ (by decide)⟩
  · refine ⟨fun _ => by decide, ?_, by decide⟩
    simp only [List.forall_mem_cons, List.not_mem_nil, IsEmpty.forall_iff, implies_true, and_true]
    decide

/-- The string is written behind the end of the strings that the vector has. -/
theorem reserved_strings_overrun : ¬∀ (proto : ElementType) (v₀ v : Vector Unit) (n : Nat) (rows : List (Vector Unit)),
    n < 2 ^ 32 → v₀.proto = some proto → v₀.reserve_value_capacity n = .done v → (∀ row ∈ rows, Source proto row) →
      total rows ≤ n → Aggregates proto v rows := by
  intro all
  have source : Source .dods_str_c (stringRow ["a"]) :=
    ⟨rfl, rfl, by decide, by decide, fun _ kind => (by cases kind), fun _ => by decide⟩
  obtain ⟨⟨v', done, -⟩, -⟩ := all .dods_str_c (ofProto (some .dods_str_c)) { ofProto (some .dods_str_c) with capacity := 1 } 1
    [stringRow ["a"]] (by decide) rfl rfl (List.forall_mem_singleton.mpr source) (by decide)
  cases done

end

/-! ## Elements at given places -/

/-- The loop of `value`, at the place `i` of the list of indices. The test of an index lets the length through. -/
def extract (name : String) (length : Nat) (at_ : Nat → Option β) : List Nat → Nat → List β → Outcome (List β)
  | [], _, b => .done b
  | currentIndex :: indices, i, b =>
    if currentIndex > length then
      .threw b ("Vector::value() - Subset index[" ++ toString i ++ "] = " ++ toString currentIndex ++
        " references a value that is outside the bounds of the internal storage [ length()= " ++ toString length ++
        " ] name: '" ++ name ++ "'. ")
    else
      match at_ currentIndex with
      | none => .undefined
      | some x => if i < b.length then extract name length at_ indices (i + 1) (b.set i x) else .undefined

/-- The bytes of an element. -/
def valueAt (c : Cardinal) (v : Vector α) (k : Nat) : Option (List UInt8) :=
  let b := v.buf.getD []
  if (k + 1) * c.width ≤ b.length then some ((b.drop (k * c.width)).take c.width) else none

/-- `value_worker` for the values of type `c`. -/
def value_worker (c : Cardinal) (name : String) (v : Vector α) (indices : List Nat) (b : List (List UInt8)) :
    Outcome (List (List UInt8)) :=
  extract name (u32 v.length) (v.valueAt c) indices 0 b

/-- `value` for strings. -/
def value_str (name : String) (v : Vector α) (subsetIndex : List Nat) (b : List String) : Outcome (List String) :=
  match v.proto with
  | none => .undefined
  | some proto =>
    if proto.isString then extract name (u32 v.length) (v.str[·]?) subsetIndex 0 b
    else .done b

/-- An index past the end is refused, and otherwise the elements at the indices are stored. -/
structure Extracts (n : Nat) (at_ : Nat → Option β) (indices : List Nat) (b : List β) (o : Outcome (List β)) : Prop where
  throws : (∃ b' message, o = .threw b' message) ↔ ∃ k ∈ indices, n ≤ k
  stores : (∀ k ∈ indices, k < n) → ∃ b' : List β, o = .done b' ∧ b'.length = b.length ∧
    (∀ (i k : Nat), indices[i]? = some k → b'[i]? = at_ k) ∧ ∀ i : Nat, indices.length ≤ i → b'[i]? = b[i]?

/-- The length is not among the indices ahead of the first one that is greater, or there is one more element in the
    storage and a greater index does come. -/
def LengthSpared (n : Nat) (at_ : Nat → Option β) (indices : List Nat) : Prop :=
  n ∉ indices.takeWhile (· ≤ n) ∨ ((at_ n).isSome ∧ ∃ k ∈ indices, n < k)

section

variable {name : String} {n : Nat} {at_ : Nat → Option β} {indices : List Nat} {b : List β} {i : Nat}

/-- Indices that are let through. -/
def Taken (n : Nat) (at_ : Nat → Option β) (indices : List Nat) : Prop := ∀ k ∈ indices, k ≤ n ∧ (at_ k).isSome

theorem getElem?_filterMap_taken (taken : Taken n at_ indices) (i : Nat) :
    (indices.filterMap at_)[i]? = indices[i]?.bind at_ := by
  induction indices generalizing i with
  | nil => rfl
  | cons k indices ih =>
      obtain ⟨⟨-, some_⟩, taken⟩ := List.forall_mem_cons.mp taken
      obtain ⟨x, is⟩ := Option.isSome_iff_exists.mp some_
      rw [List.filterMap_cons_some is]
      cases i with
      | zero => exact is.symm
      | succ i => exact ih taken i

theorem length_filterMap_taken (taken : Taken n at_ indices) : (indices.filterMap at_).length = indices.length := by
  induction indices with
  | nil => rfl
  | cons k indices ih =>
      obtain ⟨⟨-, some_⟩, taken⟩ := List.forall_mem_cons.mp taken
      obtain ⟨x, is⟩ := Option.isSome_iff_exists.mp some_
      rw [List.filterMap_cons_some is, List.length_cons, List.length_cons, ih taken]

theorem extract_append {rest : List Nat} (taken : Taken n at_ indices) (room : i + indices.length ≤ b.length) :
    extract name n at_ (indices ++ rest) i b =
      extract name n at_ rest (i + indices.length) (splice b i (indices.filterMap at_)) := by
  induction indices generalizing i b with
  | nil => rw [List.nil_append, List.filterMap_nil, splice_nil, List.length_nil, Nat.add_zero]
  | cons k indices ih =>
      obtain ⟨⟨le, some_⟩, taken⟩ := List.forall_mem_cons.mp taken
      obtain ⟨x, is⟩ := Option.isSome_iff_exists.mp some_
      rw [List.length_cons] at room ⊢
      have inside : i + [x].length ≤ b.length := by
        rw [List.length_singleton]
        omega
      have both := splice_splice inside (indices.filterMap at_)
      rw [List.length_singleton, List.singleton_append] at both
      rw [List.cons_append, extract, if_neg (by omega), is]
      simp only
      rw [if_pos (by omega), ih taken (by rw [List.length_set]; omega), set_eq_splice (by omega), both,
        List.filterMap_cons_some is, Nat.add_assoc, Nat.add_comm 1]

/-- All indices are let through, or one is refused. -/
theorem extract_done (taken : Taken n at_ indices) (room : indices.length ≤ b.length) :
    extract name n at_ indices 0 b = .done (splice b 0 (indices.filterMap at_)) := by
  have room : 0 + indices.length ≤ b.length := by omega
  have all := @extract_append _ name _ _ _ _ _ [] taken room
  rwa [List.append_nil, extract] at all

theorem extract_threw {k : Nat} {rest : List Nat} (taken : Taken n at_ indices) (room : indices.length ≤ b.length)
    (above : n < k) : ∃ b' message, extract name n at_ (indices ++ k :: rest) 0 b = .threw b' message := by
  rw [extract_append taken (by omega), extract, if_pos above]
  exact ⟨_, _, rfl⟩

theorem extract_undefined {k : Nat} {rest : List Nat} (taken : Taken n at_ indices) (room : indices.length ≤ b.length)
    (le : k ≤ n) (absent : at_ k = none) : extract name n at_ (indices ++ k :: rest) 0 b = .undefined := by
  rw [extract_append taken (by omega), extract, if_neg (by omega), absent]

theorem extracts_of_taken (taken : Taken n at_ indices) (below : ∀ k ∈ indices, k < n) (room : indices.length ≤ b.length) :
    Extracts n at_ indices b (extract name n at_ indices 0 b) := by
  rw [extract_done taken room]
  have length := length_filterMap_taken taken
  have inside : 0 + (indices.filterMap at_).length ≤ b.length := by omega
  refine ⟨⟨?_, ?_⟩, fun _ => ⟨_, rfl, length_splice inside, ?_, ?_⟩⟩
  · rintro ⟨b', message, threw⟩
    cases threw
  · rintro ⟨k, mem, le⟩
    have lt := below k mem
    omega
  · intro i k is
    obtain ⟨lt, -⟩ := List.getElem?_eq_some_iff.mp is
    rw [← Nat.zero_add i, getElem?_splice_inside inside (by omega), getElem?_filterMap_taken taken, is, Option.bind_some]
  · intro i behind
    exact getElem?_splice_behind inside (by omega)

theorem extracts_of_threw {o : Outcome (List β)} (threw : ∃ b' message, o = .threw b' message) {k : Nat} (mem : k ∈ indices)
    (le : n ≤ k) : Extracts n at_ indices b o where
  throws := iff_of_true threw ⟨k, mem, le⟩
  stores below := by
    have lt := below k mem
    omega

theorem extracts_iff (present : ∀ k, k < n → (at_ k).isSome) (room : indices.length ≤ b.length) :
    Extracts n at_ indices b (extract name n at_ indices 0 b) ↔ LengthSpared n at_ indices := by
  have all : indices.takeWhile (· ≤ n) ++ indices.dropWhile (· ≤ n) = indices := List.takeWhile_append_dropWhile
  have front : ∀ k ∈ indices.takeWhile (· ≤ n), k ≤ n := fun k mem => by
    simpa using List.mem_takeWhile_imp mem
  have short : (indices.takeWhile (· ≤ n)).length ≤ b.length :=
    le_trans (List.takeWhile_sublist _).length_le room
  have greater : ∀ k rest, indices.dropWhile (· ≤ n) = k :: rest → n < k := by
    intro k rest is
    have head := List.head?_dropWhile_not (· ≤ n) indices
    rw [is] at head
    simpa using head
  by_cases spared : n ∈ indices.takeWhile (· ≤ n)
  · have mem : n ∈ indices := (List.takeWhile_sublist _).subset spared
    cases more : at_ n with
    | none =>
        -- the loop comes to the first index that is the length, where there is nothing to read
        refine iff_of_false (fun extracts => ?_) ?_
        · obtain ⟨before, behind, same, fresh⟩ := List.eq_append_cons_of_mem spared
          have taken : Taken n at_ before := by
            intro k inside
            have le := front k (by rw [same]; exact List.mem_append_left _ inside)
            have ne : k ≠ n := fun is => fresh (is ▸ inside)
            exact ⟨le, present k (by omega)⟩
          have undefined_ : extract name n at_ indices 0 b = .undefined := by
            rw [← all, same, List.append_assoc, List.cons_append]
            refine extract_undefined taken ?_ le_rfl more
            rw [same, List.length_append] at short
            omega
          rw [undefined_] at extracts
          obtain ⟨b', message, threw⟩ := extracts.throws.mpr ⟨n, mem, le_rfl⟩
          cases threw
        · rintro (absent | ⟨some_, -⟩)
          · exact absent spared
          · rw [more] at some_
            cases some_
    | some x =>
        have taken : Taken n at_ (indices.takeWhile (· ≤ n)) := by
          intro k inside
          have le := front k inside
          refine ⟨le, ?_⟩
          rcases Nat.lt_or_eq_of_le le with lt | rfl
          · exact present k lt
          · rw [more]
            rfl
        cases rest : indices.dropWhile (· ≤ n) with
        | nil =>
            rw [rest, List.append_nil] at all
            refine iff_of_false (fun extracts => ?_) ?_
            · rw [all] at taken
              rw [extract_done taken room] at extracts
              obtain ⟨b', message, threw⟩ := extracts.throws.mpr ⟨n, mem, le_rfl⟩
              cases threw
            · rintro (absent | ⟨-, k, inside, above⟩)
              · exact absent spared
              · have le := front k (by rw [all]; exact inside)
                omega
        | cons k rest' =>
            have above := greater k rest' rest
            have inside : k ∈ indices := by
              rw [← all, rest]
              simp
            refine iff_of_true (extracts_of_threw ?_ mem le_rfl) (.inr ⟨by rw [more]; rfl, k, inside, above⟩)
            rw [← all, rest]
            exact extract_threw taken short above
  · have taken : Taken n at_ (indices.takeWhile (· ≤ n)) := by
      intro k inside
      have le := front k inside
      have ne : k ≠ n := fun is => spared (is ▸ inside)
      exact ⟨le, present k (by omega)⟩
    refine iff_of_true ?_ (.inl spared)
    cases rest : indices.dropWhile (· ≤ n) with
    | nil =>
        rw [rest, List.append_nil] at all
        rw [all] at taken spared front
        refine extracts_of_taken taken (fun k inside => ?_) room
        have le := front k inside
        have ne : k ≠ n := fun is => spared (is ▸ inside)
        omega
    | cons k rest' =>
        have above := greater k rest' rest
        have inside : k ∈ indices := by
          rw [← all, rest]
          simp
        refine extracts_of_threw ?_ inside above.le
        rw [← all, rest]
        exact extract_threw taken short above

theorem valueAt_isSome {v : Vector α} {c : Cardinal} (held : n * c.width ≤ (v.buf.getD []).length) {k : Nat} (lt : k < n) :
    (v.valueAt c k).isSome := by
  have inside : (k + 1) * c.width ≤ (v.buf.getD []).length := le_trans (Nat.mul_le_mul_right _ lt) held
  rw [valueAt, if_pos inside]
  rfl

/-- Numbers and strings are taken from a vector as they should be exactly when the length is spared. -/
theorem value_iff (v : Vector α) (length : v.length = n) (bound : n < 2 ^ 31) (name : String) (indices : List Nat) :
    (∀ c b, v.stored = some c → n * c.width ≤ (v.buf.getD []).length → indices.length ≤ b.length →
      (Extracts n (v.valueAt c) indices b (value_worker c name v indices b) ↔ LengthSpared n (v.valueAt c) indices)) ∧
    ∀ b, (v.proto.map ElementType.isString).getD false = true → n ≤ v.str.length → indices.length ≤ b.length →
      (Extracts n (v.str[·]?) indices b (value_str name v indices b) ↔ LengthSpared n (v.str[·]?) indices) := by
  have length' : u32 v.length = n := by
    rw [length]
    exact u32_of_lt (by omega)
  constructor
  · intro c b _ held room
    rw [value_worker, length']
    exact extracts_iff (fun k lt => valueAt_isSome held lt) room
  · intro b strings held room
    have extracted : value_str name v indices b = extract name n (v.str[·]?) indices 0 b := by
      cases proto : v.proto with
      | none =>
          rw [proto] at strings
          cases strings
      | some t =>
          rw [proto] at strings
          rw [value_str, proto]
          simp only
          rw [if_pos (show t.isString = true from strings), length']
    rw [extracted]
    refine extracts_iff (fun k lt => ?_) room
    rw [List.getElem?_eq_getElem (by omega)]
    rfl

/-- Two of three bytes. -/
theorem threeBytes_taken : Extracts 3 ((byteRow [7, 8, 9]).valueAt .dods_byte_c) [2, 0] [[], []]
    (value_worker .dods_byte_c "v" (byteRow [7, 8, 9]) [2, 0] [[], []]) :=
  ((value_iff (byteRow [7, 8, 9]) (n := 3) rfl (by decide) "v" [2, 0]).1 .dods_byte_c [[], []] rfl (by decide)
    (by decide)).mpr (.inl (by decide))

/-- The length itself is not refused. -/
theorem length_not_refused : ¬∀ (v : Vector Unit) (n : Nat) (name : String) (indices : List Nat) (b : List String),
    v.length = n → n < 2 ^ 31 → (v.proto.map ElementType.isString).getD false = true → n ≤ v.str.length →
      indices.length ≤ b.length → Extracts n (v.str[·]?) indices b (value_str name v indices b) := by
  intro all
  have extracts := all (stringRow ["a", "b"]) 2 "v" [2] [""] rfl (by decide) rfl (by decide) (by decide)
  obtain ⟨b', message, threw⟩ := extracts.throws.mpr ⟨2, List.mem_singleton_self 2, le_rfl⟩
  cases threw

end

end Vector

end Libdap.Dap2
