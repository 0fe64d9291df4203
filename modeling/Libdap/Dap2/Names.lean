import Libdap.Dap4.Lookup

/-! # Names in a request

A name is written with an escape for each character that is not allowed, and read back by
`www2id`. A character is a byte here; that with the code 0 ends a C string, and is lost.
-/

namespace Libdap.Dap2

open Dap4

/-- The characters that `id2www` leaves as they are. -/
def allowable : List Char := "ABCDEFGHIJKLMNOPQRSTUVWXYZabcdefghijklmnopqrstuvwxyz0123456789-+_/.\\*".toList

def hexDigit (n : Nat) : Char := Char.ofNat (if n < 10 then 48 + n else 87 + n)

/-- Two digits, for the code of a byte. -/
def hexstring (val : Nat) : List Char := [hexDigit (val / 16), hexDigit (val % 16)]

def id2www : Name → Name
  | [] => []
  | c :: cs => if c ∈ allowable then c :: id2www cs else '%' :: hexstring c.toNat ++ id2www cs

/-- A name is made of bytes, of which none ends a C string. -/
def Bytes (s : Name) : Prop := ∀ c ∈ s, c.toNat < 256 ∧ c.toNat ≠ 0

instance (s : Name) : Decidable (Bytes s) := List.decidableBAll (fun c : Char => c.toNat < 256 ∧ c.toNat ≠ 0) s

theorem unhexstring_hexstring : ∀ val < 256, val ≠ 0 → unhexstring (hexstring val) = [Char.ofNat val] := by
  decide +kernel

theorem www2id_escape (a b : Char) {decoded : Char} (hex : unhexstring [a, b] = [decoded]) (cs : Name) :
    www2id ('%' :: a :: b :: cs) = decoded :: www2id cs := by
  rw [www2id.eq_def]
  simp only [hex]
  rfl

theorem www2id_plain {c : Char} (plain : c ≠ '%') (cs : Name) : www2id (c :: cs) = c :: www2id cs := by
  rw [www2id]
  · rintro rfl
    exact absurd rfl plain
  · rintro a rfl
    exact absurd rfl plain
  · rintro a b cs' rfl
    exact absurd rfl plain

/-- What is written with escapes is read back. -/
theorem www2id_cancels {s : Name} (bytes : Bytes s) : www2id (id2www s) = s := by
  induction s with
  | nil => rw [id2www, www2id]
  | cons c cs ih =>
      rw [Bytes, List.forall_mem_cons] at bytes
      obtain ⟨⟨byte, some_⟩, others⟩ := bytes
      rw [id2www]
      split
      · rename_i allowed
        have plain : c ≠ '%' := by
          rintro rfl
          revert allowed
          decide
        rw [www2id_plain plain, ih others]
      · have hex := unhexstring_hexstring c.toNat byte some_
        rw [Char.ofNat_toNat] at hex
        rw [hexstring, List.cons_append, List.cons_append, List.cons_append, List.nil_append,
          www2id_escape _ _ hex, ih others]

end Libdap.Dap2
