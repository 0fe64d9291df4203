import Mathlib.Data.List.Basic
import Mathlib.Tactic.Common

/-! # Crossing out

Everyone in a row of askers crosses out the first entry of a list that suits
them. Seen from the list, every entry in turn goes to the first asker it suits
whom no entry before it went to.
-/

namespace Libdap

section

variable {α β : Type} (suits : α → β → Bool)

/-- What is left of the list. -/
def crossOut (askers : List α) (entries : List β) : List β :=
  askers.foldl (fun left a => left.eraseP (suits a)) entries

/-- The entries that go to an asker are those that should. -/
def GoesTo (should : β → Prop) : List α → List β → Prop
  | _, [] => True
  | askers, e :: entries =>
    if askers.any (suits · e) then should e ∧ GoesTo should (askers.eraseP (suits · e)) entries
    else ¬should e ∧ GoesTo should askers entries

variable {suits}

instance GoesTo.instDecidable (should : β → Prop) [DecidablePred should] :
    (askers : List α) → (entries : List β) → Decidable (GoesTo suits should askers entries)
  | _, [] => .isTrue trivial
  | askers, e :: entries =>
    let _ := instDecidable should (askers.eraseP (suits · e)) entries
    let _ := instDecidable should askers entries
    inferInstanceAs (Decidable (if askers.any (suits · e) then
      should e ∧ GoesTo suits should (askers.eraseP (suits · e)) entries
    else ¬should e ∧ GoesTo suits should askers entries))

theorem crossOut_nil (askers : List α) : crossOut suits askers [] = [] := by
  induction askers with
  | nil => rfl
  | cons a askers ih => exact ih

/-- The first entry stays when it suits nobody, and is gone with its asker otherwise. -/
theorem crossOut_cons (askers : List α) (e : β) (entries : List β) :
    crossOut suits askers (e :: entries) =
      if askers.any (suits · e) then crossOut suits (askers.eraseP (suits · e)) entries
      else e :: crossOut suits askers entries := by
  induction askers generalizing entries with
  | nil => rfl
  | cons a askers ih =>
      cases fits : suits a e with
      | true => simp [crossOut, fits]
      | false =>
          have step : crossOut suits (a :: askers) (e :: entries) =
              crossOut suits askers (e :: entries.eraseP (suits a)) := by simp [crossOut, fits]
          rw [step, ih, List.any_cons, List.eraseP_cons, fits, Bool.false_or, cond_false]
          rfl

theorem crossOut_sublist (askers : List α) (entries : List β) :
    (crossOut suits askers entries).Sublist entries := by
  induction askers generalizing entries with
  | nil => exact List.Sublist.refl _
  | cons a askers ih => exact (ih _).trans List.eraseP_sublist

/-- What is left are the entries that should not go, exactly when each entry goes as it should. -/
theorem crossOut_eq_filter_iff (should : β → Prop) [DecidablePred should] (askers : List α) (entries : List β) :
    crossOut suits askers entries = entries.filter (fun e => ¬should e) ↔ GoesTo suits should askers entries := by
  induction entries generalizing askers with
  | nil => simp [crossOut_nil, GoesTo]
  | cons e entries ih =>
      rw [crossOut_cons, GoesTo]
      split
      · by_cases wanted : should e
        · simpa [wanted] using ih _
        · simp only [wanted, false_and, iff_false]
          intro same
          -- Everything that is left would be an entry that should not go, and one too many.
          have few : (crossOut suits (askers.eraseP (suits · e)) entries).length ≤
              (entries.filter (fun e => ¬should e)).length := by
            have all : ∀ x ∈ crossOut suits (askers.eraseP (suits · e)) entries, ¬should x := by
              intro x mem
              rw [same] at mem
              simpa using (List.mem_filter.mp mem).2
            have sub : ((crossOut suits (askers.eraseP (suits · e)) entries).filter (fun e => decide ¬should e)).Sublist
                (entries.filter (fun e => decide ¬should e)) := (crossOut_sublist _ _).filter _
            rw [List.filter_eq_self.mpr (fun x mem => by simpa using all x mem)] at sub
            exact sub.length_le
          rw [same] at few
          simp only [wanted, not_false_eq_true, decide_true, List.filter_cons_of_pos, List.length_cons] at few
          omega
      · by_cases wanted : should e
        · simp only [wanted, not_true_eq_false, false_and, iff_false]
          intro same
          have mem : e ∈ (e :: entries).filter (fun e => ¬should e) := same ▸ List.mem_cons_self
          simpa [wanted] using (List.mem_filter.mp mem).2
        · simpa [wanted] using ih _

end

end Libdap
