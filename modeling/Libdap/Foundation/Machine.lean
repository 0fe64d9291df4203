import Mathlib.Logic.Relation

/-! # Machines that may run on

A machine goes from one configuration to the next until there is none. Its run ends if it
gets to a configuration without a next one; it does not if it comes back to where it was.
-/

namespace Libdap.Foundation

variable {C : Type} {step : C → Option C}

/-- The run from a configuration ends. -/
inductive Ends (step : C → Option C) : C → Prop where
  | intro {c : C} : (∀ c', step c = some c' → Ends step c') → Ends step c

def Reaches (step : C → Option C) : C → C → Prop := Relation.ReflTransGen fun c c' => step c = some c'

theorem ends_of_none {c : C} (last : step c = none) : Ends step c := by
  refine .intro fun c' next => ?_
  rw [last] at next
  cases next

theorem ends_of_step {c c' : C} (next : step c = some c') (ends : Ends step c') : Ends step c := by
  refine .intro fun c'' next' => ?_
  rw [next] at next'
  cases next'
  exact ends

theorem Ends.after_step {c c' : C} (ends : Ends step c) (next : step c = some c') : Ends step c' := by
  cases ends with
  | intro later => exact later c' next

theorem ends_of_reaches {c c' : C} (reaches : Reaches step c c') (ends : Ends step c') : Ends step c := by
  induction reaches using Relation.ReflTransGen.head_induction_on with
  | refl => exact ends
  | head next _ ih => exact ends_of_step next ih

theorem Ends.after {c c' : C} (ends : Ends step c) (reaches : Reaches step c c') : Ends step c' := by
  induction reaches with
  | refl => exact ends
  | tail _ next ih => exact ih.after_step next

/-- What comes back does not end. -/
theorem not_ends_of_cycle {c c' : C} (next : step c = some c') (back : Reaches step c' c) : ¬Ends step c := by
  intro ends
  induction ends generalizing c' with
  | @intro c _ ih =>
    rcases Relation.ReflTransGen.cases_head back with same | ⟨c'', more, rest⟩
    · subst same
      exact ih c' next next back
    · exact ih c' next more (rest.tail next)

theorem Reaches.trans {c c' c'' : C} (first : Reaches step c c') (second : Reaches step c' c'') : Reaches step c c'' :=
  Relation.ReflTransGen.trans first second

theorem reaches_of_step {c c' : C} (next : step c = some c') : Reaches step c c' := .single next

end Libdap.Foundation
