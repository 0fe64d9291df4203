import Mathlib.Data.List.Basic

/-! # Resetting the row counters of nested Sequences

`Sequence::reset_row_number(bool)` goes through the variables of a Sequence and, for each
that is a Sequence, calls itself. The call is made on the Sequence it is in, not on the
variable, so that a Sequence with a child is reset without end.
-/

namespace Libdap.Dap2.RowReset

variable {α : Type}

/-- A variable and its variables, `α` being whatever else it holds. -/
inductive Var (α : Type) where
  /-- Of any type but `dods_sequence_c`. -/
  | other (rest : α) (vars : List (Var α))
  | sequence (rest : α) (rowNumber : Int) (vars : List (Var α))

structure Sequence (α : Type) where
  rest : α
  rowNumber : Int
  vars : List (Var α)

/-- `type() == dods_sequence_c` -/
def Var.isSequence : Var α → Bool
  | .other _ _ => false
  | .sequence _ _ _ => true

namespace Sequence

/-- `reset_row_number()` -/
def resetRowNumber (s : Sequence α) : Sequence α := { s with rowNumber := -1 }

/-- `reset_row_number(bool)`, if there are fewer calls below each other than this. -/
def resetRowNumbers : Nat → Bool → Sequence α → Option (Sequence α)
  | 0, _, _ => none
  | fuel + 1, recur, s =>
      let s := s.resetRowNumber
      if recur then
        s.vars.foldlM (fun s v => if v.isSequence then resetRowNumbers fuel true s else some s) s
      else some s

end Sequence

/-! ## What is meant -/

mutual
/-- A variable with the counter of every Sequence in it at -1. -/
def Var.reset : Var α → Var α
  | .other rest vars => .other rest (resetVars vars)
  | .sequence rest _ vars => .sequence rest (-1) (resetVars vars)

def resetVars : List (Var α) → List (Var α)
  | [] => []
  | v :: vars => v.reset :: resetVars vars
end

mutual
/-- The counters of the Sequences in a variable. -/
def Var.counters : Var α → List Int
  | .other _ vars => countersOf vars
  | .sequence _ rowNumber vars => rowNumber :: countersOf vars

def countersOf : List (Var α) → List Int
  | [] => []
  | v :: vars => v.counters ++ countersOf vars
end

namespace Sequence

/-- The Sequence with its counter and that of every Sequence below it at -1, and all else as it is. -/
def allReset (s : Sequence α) : Sequence α := { s with rowNumber := -1, vars := resetVars s.vars }

/-- `reset_row_number(true)` returns, and does what is meant. -/
def Resets (s : Sequence α) : Prop := ∃ fuel, resetRowNumbers fuel true s = some s.allReset

end Sequence

mutual
theorem reset_eq_iff (v : Var α) : v.reset = v ↔ ∀ n ∈ v.counters, n = -1 := by
  cases v with
  | other rest vars => simp [Var.reset, Var.counters, resetVars_eq_iff vars]
  | sequence rest rowNumber vars =>
      simp only [Var.reset, Var.counters, Var.sequence.injEq, true_and, List.forall_mem_cons,
        resetVars_eq_iff vars]
      exact and_congr_left fun _ => eq_comm

theorem resetVars_eq_iff (vars : List (Var α)) : resetVars vars = vars ↔ ∀ n ∈ countersOf vars, n = -1 := by
  cases vars with
  | nil => simp [resetVars, countersOf]
  | cons v vars =>
      simp only [resetVars, countersOf, List.cons.injEq, List.forall_mem_append, reset_eq_iff v,
        resetVars_eq_iff vars]
end

/-! ## What the code does -/

namespace Sequence

/-- A loop that comes to a Sequence does not return if no call does. -/
theorem foldlM_none {call : Sequence α → Option (Sequence α)} {t : Sequence α} (calls : call t = none)
    {vars : List (Var α)} (child : ∃ v ∈ vars, v.isSequence = true) :
    vars.foldlM (fun s v => if v.isSequence then call s else some s) t = none := by
  induction vars with
  | nil => simp at child
  | cons v vars ih =>
      rw [List.foldlM_cons]
      cases isSequence : v.isSequence with
      | true => simp [calls]
      | false =>
          have later : ∃ v ∈ vars, v.isSequence = true := by
            obtain ⟨w, mem, isSequence'⟩ := child
            cases mem with
            | head => simp [isSequence] at isSequence'
            | tail _ mem => exact ⟨w, mem, isSequence'⟩
          exact ih later

theorem foldlM_some {call : Sequence α → Option (Sequence α)} (t : Sequence α) {vars : List (Var α)}
    (none_ : ∀ v ∈ vars, v.isSequence = false) :
    vars.foldlM (fun s v => if v.isSequence then call s else some s) t = some t := by
  induction vars with
  | nil => rfl
  | cons v vars ih =>
      rw [List.foldlM_cons, none_ v (.head _)]
      exact ih fun w mem => none_ w (.tail _ mem)

/-- Each call finds the same variables, so the one below it is made as well. -/
theorem resetRowNumbers_none {s : Sequence α} (child : ∃ v ∈ s.vars, v.isSequence = true) (fuel : Nat) :
    resetRowNumbers fuel true s = none := by
  induction fuel generalizing s with
  | zero => rfl
  | succ fuel ih =>
      have calls : resetRowNumbers fuel true s.resetRowNumber = none := ih child
      rw [resetRowNumbers, if_pos rfl]
      exact foldlM_none calls child

theorem resetRowNumbers_some {s : Sequence α} (none_ : ∀ v ∈ s.vars, v.isSequence = false) (fuel : Nat) :
    resetRowNumbers (fuel + 1) true s = some s.resetRowNumber :=
  foldlM_some _ none_

/-- The counters are reset where no variable of the Sequence is one itself, and what is in a variable is
    at -1 before. -/
theorem resets_iff (s : Sequence α) :
    s.Resets ↔ (∀ v ∈ s.vars, v.isSequence = false) ∧ ∀ n ∈ countersOf s.vars, n = -1 := by
  have same : s.resetRowNumber = s.allReset ↔ ∀ n ∈ countersOf s.vars, n = -1 := by
    rw [← resetVars_eq_iff, resetRowNumber, allReset, Sequence.mk.injEq]
    simp [eq_comm]
  constructor
  · intro ⟨fuel, resets⟩
    have none_ : ∀ v ∈ s.vars, v.isSequence = false := by
      by_contra child
      simp only [not_forall, Bool.not_eq_false] at child
      obtain ⟨v, mem, isSequence⟩ := child
      simp [resetRowNumbers_none ⟨v, mem, isSequence⟩] at resets
    refine ⟨none_, same.mp ?_⟩
    cases fuel with
    | zero => simp [resetRowNumbers] at resets
    | succ fuel => exact Option.some.inj ((resetRowNumbers_some none_ fuel).symm.trans resets)
  · intro ⟨none_, counters⟩
    exact ⟨1, (resetRowNumbers_some none_ 0).trans (congrArg some (same.mpr counters))⟩

theorem nested_never_resets : ¬ ∀ s : Sequence Unit, s.Resets := by
  intro all
  obtain ⟨fuel, resets⟩ := all ⟨(), 3, [.sequence () 2 []]⟩
  have child : ∃ v ∈ [Var.sequence () 2 []], v.isSequence = true := ⟨_, .head _, rfl⟩
  simp [resetRowNumbers_none (s := ⟨(), 3, [.sequence () 2 []]⟩) child] at resets

end Sequence

end Libdap.Dap2.RowReset
