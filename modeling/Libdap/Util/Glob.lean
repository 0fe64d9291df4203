import Libdap.Foundation.CInt
import Libdap.Foundation.Wildcards

/-! # `glob` as the code runs it

`util.cc`. A pattern and a string are C strings: a list is what stands before the null
character. `glob` reads its pattern piece by piece and tries a `*` by calling itself.
-/

namespace Libdap.Util

open Wildcards

/-- The characters 1 to 127. -/
def IsSevenBit (ch : Char) : Prop := 0 < ch.toNat ∧ ch.toNat < 128

instance (ch : Char) : Decidable (IsSevenBit ch) := inferInstanceAs (Decidable (_ ∧ _))

/-- A C string of such characters. -/
def SevenBit (s : List Char) : Prop := ∀ ch ∈ s, IsSevenBit ch

instance (s : List Char) : Decidable (SevenBit s) := List.decidableBAll IsSevenBit s

/-- `*s`. -/
def deref (s : List Char) : Char := s.headD '\x00'

/-! ## `globchars` -/

/-- `char bitlist[BITLISTSIZE]`, its bit `c % 8` of byte `c / 8` being bit `c` of the word. -/
abbrev BitList := BitVec 128

namespace BitList

/-- `b[c / 8] |= (1 << (c % 8))`. -/
def add (b : BitList) (c : Nat) : BitList := b ||| 1#128 <<< c

/-- `for (c = s[0]; c <= s[2]; c++)`. -/
def addRange (b : BitList) (low high : Nat) : BitList := (List.range' low (high + 1 - low)).foldl add b

/-- The loop up to `e`. -/
def addAll (b : BitList) : List Char → BitList
  | low :: '-' :: high :: rest => (b.addRange low.toNat high.toNat).addAll rest
  | c :: rest => (b.add c.toNat).addAll rest
  | [] => b

/-- `CHECK_BIT`. -/
def check (b : BitList) (c : Char) : Bool := b.getLsbD c.toNat

/-- `neg` turns every byte round. -/
def ofText : List Char → BitList
  | '^' :: text => ~~~ addAll 0 text
  | text => addAll 0 text

end BitList

/-- The list for the characters from `s` to `e`, without the null character. -/
def globchars (text : List Char) : BitList := BitList.ofText text &&& ~~~ 1#128

/-! ## `glob` -/

/-- `++i`, on an `int`. -/
def increment (i : Int) : Int := CType.convert ⟨32, true⟩ (i + 1)

/-- The characters up to a `]` and what follows that. -/
def upToBracket : List Char → Option (List Char × List Char)
  | [] => none
  | ']' :: c => some ([], c)
  | ch :: c => (upToBracket c).map fun (text, c) => (ch :: text, c)

/-- The scan for the matching `]`: the first character is passed over whatever it is. -/
def scanSet : List Char → Option (List Char × List Char)
  | [] => none
  | ch :: c => (upToBracket c).map fun (text, c) => (ch :: text, c)

/-- What is left of the pattern behind a set. -/
theorem upToBracket_text {c text rest : List Char} (scan : upToBracket c = some (text, rest)) :
    c = text ++ ']' :: rest ∧ ']' ∉ text := by
  fun_induction upToBracket c generalizing text rest with
  | case1 => simp at scan
  | case2 c => simp_all
  | case3 ch c other ih =>
      obtain ⟨⟨text', rest'⟩, inner, eq⟩ := Option.map_eq_some_iff.mp scan
      obtain ⟨eqText, eqRest⟩ := Prod.mk.inj eq
      obtain ⟨split, none_⟩ := ih inner
      subst eqText eqRest
      constructor
      · rw [split, List.cons_append]
      · simp only [List.mem_cons, not_or]
        exact ⟨fun eq => other eq.symm, none_⟩

theorem scanSet_text {c text rest : List Char} (scan : scanSet c = some (text, rest)) :
    ∃ ch inner, text = ch :: inner ∧ c = text ++ ']' :: rest ∧ ']' ∉ inner := by
  cases c with
  | nil => simp [scanSet] at scan
  | cons ch c =>
      obtain ⟨⟨inner, rest'⟩, found, eq⟩ := Option.map_eq_some_iff.mp scan
      obtain ⟨eqText, eqRest⟩ := Prod.mk.inj eq
      obtain ⟨split, none_⟩ := upToBracket_text found
      subst eqText eqRest
      exact ⟨ch, inner, rfl, by rw [split, List.cons_append], none_⟩

theorem scanSet_shorter {c text rest : List Char} (scan : scanSet c = some (text, rest)) :
    rest.length < c.length := by
  obtain ⟨ch, inner, -, split, -⟩ := scanSet_text scan
  subst split
  simp only [List.length_append, List.length_cons]
  omega

/-- The loop over the places a `*` can end at. It returns `i` once a call says that the pattern is
    exhausted. -/
def retry (call : List Char → Int) (i : Int) : List (List Char) → Option Int
  | [] => none
  | s :: rest =>
      let r := call s
      if r = 0 then some 0 else if r < 0 then some i else retry call i rest

/-- The loop, `i` being the pieces read before. -/
def globFrom (i : Int) (c s : List Char) : Int :=
  let i := increment i
  match c with
  | [] => if s = [] then 0 else -1
  | '?' :: c =>
      match s with
      | [] => i
      | _ :: s => globFrom i c s
  | '[' :: c =>
      match _scan : scanSet c with
      | none => i
      | some (text, rest) =>
          -- `c` is past the bracket when the list is made
          if (globchars (text ++ [']'])).check (deref s) then globFrom i rest s.tail else i
  | '*' :: c =>
      let call := fun s => if c = [] then (if s = [] then 0 else -1) else globFrom 0 c s
      (retry call i (shorter s)).getD (globFrom i c s)
  | '\\' :: c =>
      match c with
      | [] => i
      | ch :: c => if deref s = ch then globFrom i c s.tail else i
  | ch :: c => if deref s = ch then globFrom i c s.tail else i
termination_by c.length
decreasing_by
  all_goals simp only [List.length_cons]
  all_goals first
    | omega
    | exact Nat.lt_succ_of_lt (scanSet_shorter _scan)

def glob (c s : List Char) : Int := globFrom 0 c s

end Libdap.Util
