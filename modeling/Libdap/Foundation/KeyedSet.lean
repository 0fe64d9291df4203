import Mathlib.Data.List.Induction
import Mathlib.Data.List.Lex
import Mathlib.Order.Lattice
import Mathlib.Tactic.Tauto

/-! # Sets ordered by a key

A set whose order looks at a key only holds one element for each key: an element with the key
of one that is there is not put in. What a list puts into such a set is the first of its
elements with each key.
-/

namespace Libdap

variable {α κ : Type} [LinearOrder κ]

/-- Put an element into a set that is kept as an ascending list. -/
def insertKeyed (key : α → κ) (a : α) : List α → List α
  | [] => [a]
  | b :: rest =>
      if key a < key b then a :: b :: rest
      else if key b < key a then b :: insertKeyed key a rest
      else b :: rest

variable {key : α → κ} {l : List α}

theorem mem_insertKeyed (sorted : l.Pairwise fun a b => key a < key b) (a x : α) :
    x ∈ insertKeyed key a l ↔ x ∈ l ∨ x = a ∧ ∀ b ∈ l, key b ≠ key a := by
  induction l with
  | nil => simp [insertKeyed]
  | cons b rest ih =>
      obtain ⟨least, sorted⟩ := List.pairwise_cons.mp sorted
      rw [insertKeyed]
      split
      next before =>
        have absent : ∀ c ∈ b :: rest, key c ≠ key a := by
          intro c mem
          cases mem with
          | head => exact ne_of_gt before
          | tail _ mem => exact ne_of_gt (before.trans (least c mem))
        simp only [List.mem_cons] at absent ⊢
        tauto
      next notBefore =>
        split
        next behind =>
          have others : (∀ c ∈ b :: rest, key c ≠ key a) ↔ ∀ c ∈ rest, key c ≠ key a := by
            rw [List.forall_mem_cons]
            exact and_iff_right (ne_of_lt behind)
          rw [List.mem_cons, ih sorted, others, List.mem_cons]
          tauto
        next notBehind =>
          have same : key b = key a := le_antisymm (not_lt.mp notBefore) (not_lt.mp notBehind)
          simp only [List.forall_mem_cons, ne_eq, same, not_true, false_and, and_false, or_false]

theorem insertKeyed_sorted (sorted : l.Pairwise fun a b => key a < key b) (a : α) :
    (insertKeyed key a l).Pairwise fun a b => key a < key b := by
  induction l with
  | nil => simp [insertKeyed]
  | cons b rest ih =>
      obtain ⟨least, sorted'⟩ := List.pairwise_cons.mp sorted
      rw [insertKeyed]
      split
      next before =>
        refine List.pairwise_cons.mpr ⟨?_, sorted⟩
        intro c mem
        cases mem with
        | head => exact before
        | tail _ mem => exact before.trans (least c mem)
      next =>
        split
        next behind =>
          refine List.pairwise_cons.mpr ⟨?_, ih sorted'⟩
          intro c mem
          obtain there | ⟨rfl, -⟩ := (mem_insertKeyed sorted' a c).mp mem
          · exact least c there
          · exact behind
        next => exact sorted

/-- The set that a list is put into, one element after the other. -/
def keyedSet (key : α → κ) (as : List α) : List α := as.foldl (fun l a => insertKeyed key a l) []

theorem keyedSet_concat (as : List α) (a : α) : keyedSet key (as ++ [a]) = insertKeyed key a (keyedSet key as) := by
  rw [keyedSet, List.foldl_append]
  rfl

theorem keyedSet_sorted (as : List α) : (keyedSet key as).Pairwise fun a b => key a < key b := by
  induction as using List.reverseRecOn with
  | nil => exact .nil
  | append_singleton as a ih =>
      rw [keyedSet_concat]
      exact insertKeyed_sorted ih a

theorem mem_keyedSet (as : List α) (x : α) :
    x ∈ keyedSet key as ↔ as.find? (fun b => decide (key b = key x)) = some x := by
  induction as using List.reverseRecOn generalizing x with
  | nil => simp [keyedSet]
  | append_singleton as a ih =>
      rw [keyedSet_concat, mem_insertKeyed (keyedSet_sorted as), ih, List.find?_append]
      cases found : as.find? (fun b => decide (key b = key x)) with
      | some b =>
          have same : key b = key x := by simpa using List.find?_some found
          have there : b ∈ keyedSet key as := by rw [ih, same, found]
          simp only [Option.some.injEq, Option.some_or]
          constructor
          · rintro (eq | ⟨rfl, absent⟩)
            · exact eq
            · exact absurd same (absent b there)
          · intro eq
            exact .inl eq
      | none =>
          have absent : ∀ b ∈ keyedSet key as, key b ≠ key x := by
            intro b there same
            rw [ih, same, found] at there
            cases there
          simp only [reduceCtorEq, false_or, Option.none_or]
          constructor
          · rintro ⟨rfl, -⟩
            simp
          · intro last
            have eq := List.mem_singleton.mp (List.mem_of_find?_eq_some last)
            subst eq
            exact ⟨rfl, absent⟩

end Libdap
