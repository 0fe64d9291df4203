import Mathlib.Tactic.Ring

/-! # The index of a DAP4 constraint

What the parser makes of the text between two brackets. The words are read as
`strtoll` and `strtoull` read them, with the base taken from their first
characters.
-/

namespace Libdap.Dap4

/-- What `strtoll` and `strtoull` with base 0 find at the start of a text: a sign, a
    number, and the characters behind it. -/
structure Numeral where
  negative : Bool
  magnitude : Nat
  rest : List Char
  deriving Repr, DecidableEq

namespace Numeral

/-- `isspace` in the C locale. -/
def isspace (c : Char) : Bool := c = ' ' || (9 ≤ c.toNat && c.toNat ≤ 13)

def digit (base : Nat) (c : Char) : Option Nat :=
  let value :=
    if '0' ≤ c ∧ c ≤ '9' then c.toNat - '0'.toNat
    else if 'a' ≤ c ∧ c ≤ 'z' then c.toNat - 'a'.toNat + 10
    else if 'A' ≤ c ∧ c ≤ 'Z' then c.toNat - 'A'.toNat + 10
    else base
  if value < base then some value else none

/-- The digits in front, and what stands behind the last of them. -/
def digits (base : Nat) : List Char → List Nat × List Char
  | [] => ([], [])
  | c :: cs =>
    match digit base c with
    | none => ([], c :: cs)
    | some d => let (ds, rest) := digits base cs; (d :: ds, rest)

def sign : List Char → Bool × List Char
  | '-' :: cs => (true, cs)
  | '+' :: cs => (false, cs)
  | cs => (false, cs)

/-- `0x` before a hexadecimal digit, `0` alone for octal digits. -/
def base : List Char → Nat × List Char
  | '0' :: x :: c :: cs =>
    if (x = 'x' ∨ x = 'X') ∧ (digit 16 c).isSome then (16, c :: cs) else (8, '0' :: x :: c :: cs)
  | '0' :: cs => (8, '0' :: cs)
  | cs => (10, cs)

def read (val : List Char) : Option Numeral :=
  let (negative, cs) := sign (val.dropWhile isspace)
  let (base, cs) := base cs
  match digits base cs with
  | ([], _) => none
  | (ds, rest) => some ⟨negative, ds.foldl (fun n d => base * n + d) 0, rest⟩

end Numeral

/-- The value is converted to an `unsigned long long` by the caller. -/
def get_int64 (val : List Char) : Except String Int :=
  match Numeral.read val with
  | none => throw "Expected a 64-bit integer, but found other characters."
  | some n =>
    if n.rest ≠ [] then throw "Expected a 64-bit integer, but found other characters."
    else
      let v : Int := if n.negative then -n.magnitude else n.magnitude
      if v < -2 ^ 63 ∨ 2 ^ 63 ≤ v then throw "The 64-bit integer value is out of range." else pure v

def get_uint64 (val : List Char) : Except String Nat :=
  if (val.dropWhile Numeral.isspace).head? = some '-' then throw "Expected a valid array index."
  else
    match Numeral.read val with
    | none => throw "Expected an unsigned 64-bit integer, but found other characters."
    | some n =>
      if n.rest ≠ [] then throw "Expected an unsigned 64-bit integer, but found other characters."
      else if 2 ^ 64 ≤ n.magnitude then throw "The 64-bit integer value is out of range."
      else pure n.magnitude

/-- Conversion to an `unsigned long long`. -/
def u64 (x : Int) : Nat := (x % 2 ^ 64).toNat

/-- `D4ConstraintEvaluator::index`. -/
structure Index where
  start : Nat
  stride : Nat
  stop : Nat
  rest : Bool
  empty : Bool
  deriving Repr, DecidableEq

/-- The six forms of the rule `index`. -/
inductive Subscript where
  | all
  | one (i : List Char)
  | range (i e : List Char)
  | strided (i s e : List Char)
  | toEnd (i : List Char)
  | stridedToEnd (i s : List Char)
  deriving Repr, DecidableEq

def make_index : Subscript → Except String Index
  | .all => pure ⟨0, 1, 0, true, true⟩
  | .one i => do
    let v := u64 (← get_int64 i)
    return ⟨v, 1, v, false, false⟩
  | .range i e => do return ⟨u64 (← get_int64 i), 1, u64 (← get_int64 e), false, false⟩
  | .strided i s e => do
    return ⟨u64 (← get_int64 i), u64 (← get_int64 s), u64 (← get_int64 e), false, false⟩
  | .toEnd i => do return ⟨← get_uint64 i, 1, 0, true, false⟩
  | .stridedToEnd i s => do return ⟨u64 (← get_int64 i), u64 (← get_int64 s), 0, true, false⟩

theorem u64_lt (x : Int) : u64 x < 2 ^ 64 := by
  simp only [u64]
  omega

theorem u64_ofNat {n : Nat} (small : n < 2 ^ 64) : u64 n = n := by
  simp only [u64]
  omega

theorem get_uint64_lt {val : List Char} {n : Nat} (got : get_uint64 val = .ok n) : n < 2 ^ 64 := by
  unfold get_uint64 at got
  split at got
  · cases got
  split at got
  · cases got
  split at got
  · cases got
  split at got
  · cases got
  · rename_i small
    cases got
    exact Nat.lt_of_not_le small

example : make_index (.strided ['4'] ['0', 'x', '1', '0'] ['0', '1', '7']) =
    .ok ⟨4, 16, 15, false, false⟩ := by decide

end Libdap.Dap4
