import Libdap.Dap2.Names
import Libdap.Escaping.Xml

/-! # Names in a URL

`id2www` and `www2id` as the loops that they are: each replaces a character or an escape in place and
goes on behind it. The functions on names that the rest of the development uses are what they come to.
-/

namespace Libdap.Escaping

open Rewriting Rewriter

def id2wwwPass (allowable : Text) : Rewriter Char :=
  each (fun c => decide (c ∉ allowable)) (fun c => '%' :: Dap2.hexstring c.toNat) 3 (fun _ _ _ mem => absurd mem List.not_mem_nil)

def id2www (s allowable : Text) : Text := (id2wwwPass allowable).rewrite s

/-- `except.find(…) != npos`. -/
def among (word except : Text) : Bool := (find word.isPrefixOf except).isSome

/-- Three characters from an escape on are replaced by one, or passed over when they are among those that
are to stay. -/
def www2idPass (escape except : Text) : Rewriter Char where
  hit text := text.head?.any fun c => decide (c ∈ escape)
  count _ := 3
  by_ text := if among (text.take 3) except then text.take 3 else Dap4.unhexstring ((text.drop 1).take 2)
  skip text := if among (text.take 3) except then 3 else 1
  size := List.length
  smaller c cs hit := by
    split
    · rw [List.take_append_drop, List.length_drop, List.length_cons]
      omega
    · have short := Dap4.length_unhexstring (((c :: cs).drop 1).take 2)
      rw [List.length_drop, List.length_append, List.length_drop, List.length_cons]
      omega
  size_cons _ _ := Nat.le_succ _

def www2id (s escape except : Text) : Text := (www2idPass escape except).rewrite s

theorem id2www_eq (s : Text) : id2www s Dap2.allowable = Dap2.id2www s := by
  have whole : id2www s Dap2.allowable = s.flatMap _ := rewrite_each (fun _ _ => Nat.le_refl 3) s
  rw [whole]
  clear whole
  induction s with
  | nil => rfl
  | cons c cs ih =>
      rw [List.flatMap_cons, ih, Dap2.id2www]
      by_cases allowed : c ∈ Dap2.allowable
      · rw [if_neg (by simpa using allowed), if_pos allowed, List.singleton_append]
      · rw [if_pos (by simpa using allowed), if_neg allowed]

/-- Nothing is to stay. -/
theorem www2id_escaped (cs : Text) : www2id ('%' :: cs) ['%'] [] =
    (Dap4.unhexstring (cs.take 2) ++ cs.drop 2).take 1 ++
      www2id ((Dap4.unhexstring (cs.take 2) ++ cs.drop 2).drop 1) ['%'] [] := rewrite_of_hit rfl

theorem www2id_plain {c : Char} (plain : c ≠ '%') (cs : Text) : www2id (c :: cs) ['%'] [] = c :: www2id cs ['%'] [] :=
  rewrite_of_not_hit (by simpa [www2idPass] using plain)

theorem www2id_short {s : Text} (short : s.length ≤ 1) : s.take 1 ++ www2id (s.drop 1) ['%'] [] = s := by
  rw [List.take_of_length_le short, List.drop_eq_nil_of_le short, www2id, rewrite_nil, List.append_nil]

theorem www2id_eq (s : Text) : www2id s ['%'] [] = Dap4.www2id s := by
  fun_induction Dap4.www2id s with
  | case1 => exact rewrite_nil _
  | case2 =>
      rw [www2id_escaped]
      exact www2id_short (Dap4.length_unhexstring [])
  | case3 a =>
      rw [www2id_escaped]
      change (Dap4.unhexstring [a] ++ []).take 1 ++ www2id ((Dap4.unhexstring [a] ++ []).drop 1) ['%'] [] = _
      rw [List.append_nil]
      exact www2id_short (Dap4.length_unhexstring [a])
  | case4 a b none_ =>
      rw [www2id_escaped]
      change (Dap4.unhexstring [a, b] ++ []).take 1 ++ www2id ((Dap4.unhexstring [a, b] ++ []).drop 1) ['%'] [] = []
      rw [none_]
      exact rewrite_nil _
  | case5 a b none_ c cs ih =>
      rw [www2id_escaped]
      change (Dap4.unhexstring [a, b] ++ c :: cs).take 1 ++ www2id ((Dap4.unhexstring [a, b] ++ c :: cs).drop 1) ['%'] [] = _
      rw [none_]
      exact congrArg (c :: ·) ih
  | case6 a b cs some_ ih =>
      have short := Dap4.length_unhexstring [a, b]
      rw [www2id_escaped]
      change (Dap4.unhexstring [a, b] ++ cs).take 1 ++ www2id ((Dap4.unhexstring [a, b] ++ cs).drop 1) ['%'] [] = _
      cases decoded : Dap4.unhexstring [a, b] with
      | nil => exact absurd decoded some_
      | cons d ds =>
          rw [decoded, List.length_cons] at short
          obtain rfl := List.eq_nil_of_length_eq_zero (Nat.le_zero.mp (Nat.le_of_succ_le_succ short))
          exact congrArg (d :: ·) ih
  | case7 c cs one two more ih =>
      have plain : c ≠ '%' := by
        intro same
        rcases cs with _ | ⟨a, _ | ⟨b, cs⟩⟩
        · exact one same rfl
        · exact two a same rfl
        · exact more a b cs same rfl
      rw [www2id_plain plain, ih]

/-- A character that is allowed, or an escape. -/
def IsPiece (piece : Text) : Prop :=
  (∃ c ∈ Dap2.allowable, piece = [c]) ∨ ∃ n < 256, piece = '%' :: Dap2.hexstring n

/-- The escapes are those of the characters that are not allowed. -/
theorem pieces (s : Text) (bytes : Dap2.Bytes s) :
    ∃ pieces : List Text, id2www s Dap2.allowable = pieces.flatten ∧ ∀ piece ∈ pieces, IsPiece piece := by
  rw [id2www_eq]
  induction s with
  | nil => exact ⟨[], rfl, List.forall_mem_nil _⟩
  | cons c cs ih =>
      obtain ⟨⟨byte, -⟩, others⟩ := List.forall_mem_cons.mp bytes
      obtain ⟨pieces, whole, each⟩ := ih others
      rw [Dap2.id2www, whole]
      by_cases allowed : c ∈ Dap2.allowable
      · rw [if_pos allowed]
        exact ⟨[c] :: pieces, rfl, List.forall_mem_cons.mpr ⟨.inl ⟨c, allowed, rfl⟩, each⟩⟩
      · rw [if_neg allowed]
        exact ⟨('%' :: Dap2.hexstring c.toNat) :: pieces, rfl, List.forall_mem_cons.mpr ⟨.inr ⟨_, byte, rfl⟩, each⟩⟩

/-- Names come back from a URL, where they are made of allowed characters and of escapes. -/
theorem www2id_id2www (s : Text) (bytes : Dap2.Bytes s) : www2id (id2www s Dap2.allowable) ['%'] [] = s ∧
    ∃ pieces : List Text, id2www s Dap2.allowable = pieces.flatten ∧ ∀ piece ∈ pieces, IsPiece piece := by
  refine ⟨?_, pieces s bytes⟩
  rw [id2www_eq, www2id_eq, Dap2.www2id_cancels bytes]

/-- A percent sign and a byte that is no ASCII. -/
theorem percent_back : www2id (id2www ['a', '%', '\xe9'] Dap2.allowable) ['%'] [] = ['a', '%', '\xe9'] :=
  (www2id_id2www ['a', '%', '\xe9'] (by decide)).1

end Libdap.Escaping
