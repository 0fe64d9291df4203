import Libdap.Http.Cache
import Mathlib.Data.List.Flatten
import Mathlib.Data.List.Perm.Basic
import Mathlib.Data.List.ReduceOption

/-! # The resident entries

What the changes of a slot do to the entries of the whole table: a pointer set to
null takes one entry out, the null pointers that are erased take none, and a new
pointer brings one in.
-/

namespace Libdap.Http

section

variable {β : Type}

/-- One more in one of the lists. -/
theorem flatMap_update_perm {g : Nat → List β} {n h : Nat} {b : β} {l : List β} (lt : h < n)
    (more : (g h).Perm (b :: l)) :
    ((List.range n).flatMap g).Perm (b :: (List.range n).flatMap (Function.update g h l)) := by
  obtain ⟨before, after, split⟩ := List.append_of_mem (List.mem_range.mpr lt)
  have distinct : (before ++ h :: after).Nodup := split ▸ List.nodup_range
  have absent : h ∉ before ∧ h ∉ after := by
    have apart := List.perm_middle.nodup_iff.mp distinct
    rw [List.nodup_cons, List.mem_append, not_or] at apart
    exact apart.1
  have same : ∀ hs : List Nat, h ∉ hs → hs.flatMap (Function.update g h l) = hs.flatMap g := by
    intro hs absent
    refine List.flatMap_congr fun i mem => ?_
    rw [Function.update_of_ne]
    intro eq
    exact absent (eq ▸ mem)
  rw [split, List.flatMap_append, List.flatMap_cons, List.flatMap_append, List.flatMap_cons, same _ absent.1,
    same _ absent.2, Function.update_self]
  calc (before.flatMap g ++ (g h ++ after.flatMap g)).Perm (before.flatMap g ++ (b :: l ++ after.flatMap g)) :=
        (more.append_right _).append_left _
    _ = (before.flatMap g ++ b :: (l ++ after.flatMap g)) := rfl
    List.Perm _ (b :: (before.flatMap g ++ (l ++ after.flatMap g))) := List.perm_middle

theorem reduceOption_set_perm {cells : List (Option β)} {i : Nat} {b : β} (at_ : cells[i]? = some (some b)) :
    cells.reduceOption.Perm (b :: (cells.set i none).reduceOption) := by
  induction cells generalizing i with
  | nil => cases at_
  | cons cell cells ih =>
      cases i with
      | zero =>
          obtain rfl := Option.some.inj at_
          exact .refl _
      | succ i =>
          cases cell with
          | none => exact ih at_
          | some other => exact ((ih at_).cons other).trans (.swap b other _)

theorem reduceOption_filter (cells : List (Option β)) : (cells.filter Option.isSome).reduceOption = cells.reduceOption := by
  induction cells with
  | nil => rfl
  | cons cell cells ih =>
      cases cell with
      | none => exact ih
      | some b => exact congrArg (b :: ·) ih

end

/-- The entries of a table in its order. -/
def residentsOf (table : Nat → List (Option Pointer)) : List Pointer :=
  (List.range CACHE_TABLE_SIZE).flatMap fun cnt => (table cnt).reduceOption

theorem mem_residentsOf {table : Nat → List (Option Pointer)} {e : Pointer} :
    e ∈ residentsOf table ↔ ∃ cnt < CACHE_TABLE_SIZE, some e ∈ table cnt := by
  simp only [residentsOf, List.mem_flatMap, List.mem_range, List.reduceOption_mem_iff]

theorem residentsOf_update_perm {table : Nat → List (Option Pointer)} {slot : Nat} {e : Pointer}
    {cells : List (Option Pointer)} (lt : slot < CACHE_TABLE_SIZE)
    (more : (table slot).reduceOption.Perm (e :: cells.reduceOption)) :
    (residentsOf table).Perm (e :: residentsOf (Function.update table slot cells)) := by
  have updated : (fun cnt => (Function.update table slot cells cnt).reduceOption) =
      Function.update (fun cnt => (table cnt).reduceOption) slot cells.reduceOption :=
    Function.comp_update List.reduceOption table slot cells
  unfold residentsOf
  rw [updated]
  exact flatMap_update_perm lt more

/-- A pointer that is set to null takes its entry out. -/
theorem residentsOf_null {table : Nat → List (Option Pointer)} {slot i : Nat} {e : Pointer}
    (lt : slot < CACHE_TABLE_SIZE) (at_ : (table slot)[i]? = some (some e)) :
    (residentsOf table).Perm (e :: residentsOf (Function.update table slot ((table slot).set i none))) :=
  residentsOf_update_perm lt (reduceOption_set_perm at_)

/-- Null pointers are no entries. -/
theorem residentsOf_erase (table : Nat → List (Option Pointer)) (slot : Nat) :
    residentsOf (Function.update table slot ((table slot).filter Option.isSome)) = residentsOf table := by
  have updated : (fun cnt => (Function.update table slot ((table slot).filter Option.isSome) cnt).reduceOption) =
      fun cnt => (table cnt).reduceOption := by
    funext cnt
    by_cases same : cnt = slot
    · rw [same, Function.update_self]
      exact reduceOption_filter (table slot)
    · rw [Function.update_of_ne same]
  unfold residentsOf
  rw [updated]

/-- A new pointer at the end of a slot brings its entry in. -/
theorem residentsOf_push {table : Nat → List (Option Pointer)} {slot : Nat} {e : Pointer}
    (lt : slot < CACHE_TABLE_SIZE) :
    (residentsOf (Function.update table slot (table slot ++ [some e]))).Perm (e :: residentsOf table) := by
  have pushed : ((Function.update table slot (table slot ++ [some e])) slot).reduceOption.Perm
      (e :: (table slot).reduceOption) := by
    rw [Function.update_self, List.reduceOption_append]
    exact List.perm_append_singleton e _
  have back := residentsOf_update_perm lt pushed
  rw [Function.update_idem, Function.update_eq_self] at back
  exact back

end Libdap.Http
