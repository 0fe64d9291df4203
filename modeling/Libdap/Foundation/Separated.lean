import Mathlib.Data.List.Basic
import Mathlib.Tactic.Common

/-! # Text before and behind a separator

`find` with a character, and the two `substr`s around the place it finds.
-/

namespace Libdap

section

variable {α : Type} [DecidableEq α]

/-- What stands before the first separator and behind it. -/
def splitFirst (sep : α) : List α → Option (List α × List α)
  | [] => none
  | c :: cs =>
    if c = sep then some ([], cs)
    else (splitFirst sep cs).map fun parts => (c :: parts.1, parts.2)

variable {sep : α}

theorem splitFirst_eq_none {cs : List α} : splitFirst sep cs = none ↔ sep ∉ cs := by
  induction cs with
  | nil => simp [splitFirst]
  | cons c cs ih =>
      rw [splitFirst]
      split
      · rename_i same
        simp [same]
      · rename_i other
        rw [Option.map_eq_none_iff, ih, List.mem_cons, not_or]
        exact ⟨fun missing => ⟨Ne.symm other, missing⟩, fun missing => missing.2⟩

theorem splitFirst_append {before : List α} (missing : sep ∉ before) (behind : List α) :
    splitFirst sep (before ++ sep :: behind) = some (before, behind) := by
  induction before with
  | nil => simp [splitFirst]
  | cons c cs ih =>
      rw [List.mem_cons, not_or] at missing
      rw [List.cons_append, splitFirst, if_neg (Ne.symm missing.1), ih missing.2]
      rfl

theorem of_splitFirst {cs before behind : List α} (found : splitFirst sep cs = some (before, behind)) :
    sep ∉ before ∧ cs = before ++ sep :: behind := by
  induction cs generalizing before with
  | nil => cases found
  | cons c cs ih =>
      rw [splitFirst] at found
      split at found
      · rename_i same
        cases found
        exact ⟨List.not_mem_nil, by rw [same]; rfl⟩
      · rename_i other
        obtain ⟨⟨before', behind'⟩, found', eq⟩ := Option.map_eq_some_iff.mp found
        cases eq
        obtain ⟨missing, rfl⟩ := ih found'
        refine ⟨?_, rfl⟩
        rw [List.mem_cons, not_or]
        exact ⟨Ne.symm other, missing⟩

theorem length_of_splitFirst {cs before behind : List α} (found : splitFirst sep cs = some (before, behind)) :
    cs.length = before.length + (behind.length + 1) := by
  rw [(of_splitFirst found).2, List.length_append, List.length_cons]

end

end Libdap
