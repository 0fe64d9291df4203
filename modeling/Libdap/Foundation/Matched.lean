import Mathlib.Data.List.Forall2

/-! # Lists with elements left out

The elements of one list in their order, each beside one of another list or left out.
-/

namespace Libdap.Foundation

variable {α β : Type} {fits : α → β → Prop} {may : α → Prop}

/-- Each element fits the next one of the other list, or is one that may be left out. -/
inductive Matched (fits : α → β → Prop) (may : α → Prop) : List α → List β → Prop where
  | nil : Matched fits may [] []
  | kept {a b as bs} : fits a b → Matched fits may as bs → Matched fits may (a :: as) (b :: bs)
  | leftOut {a as bs} : may a → Matched fits may as bs → Matched fits may (a :: as) bs

namespace Matched

section

-- those that fit nothing
variable {out : α → Bool} (fitless : ∀ a b, fits a b → out a = false)
include fitless

theorem length_le {as : List α} {bs : List β} (m : Matched fits may as bs) :
    bs.length ≤ (as.filter (!out ·)).length := by
  induction m with
  | nil => exact Nat.le_refl 0
  | @kept a b as bs fit _ ih =>
      rw [List.filter_cons_of_pos (by rw [fitless a b fit]; rfl)]
      exact Nat.succ_le_succ ih
  | @leftOut a as bs _ _ ih =>
      apply Nat.le_trans ih
      exact ((List.sublist_cons_self a as).filter _).length_le

/-- With as many as there are others, all others are kept. -/
theorem kept_all {as : List α} {bs : List β} (m : Matched fits may as bs)
    (len : bs.length = (as.filter (!out ·)).length) : List.Forall₂ fits (as.filter (!out ·)) bs := by
  induction m with
  | nil => exact .nil
  | @kept a b as bs fit _ ih =>
      have passes : (!out a) = true := by rw [fitless a b fit]; rfl
      rw [List.filter_cons_of_pos (p := (!out ·)) passes] at len ⊢
      exact .cons fit (ih (Nat.succ.inj len))
  | @leftOut a as bs _ m ih =>
      have most := m.length_le fitless
      by_cases passes : (!out a) = true
      · rw [List.filter_cons_of_pos (p := (!out ·)) passes, List.length_cons] at len
        omega
      · rw [List.filter_cons_of_neg (p := (!out ·)) passes] at len ⊢
        exact ih len

end

theorem of_kept {out : α → Bool} {as : List α} {bs : List β} (may_ : ∀ a ∈ as, out a = true → may a)
    (fit : List.Forall₂ fits (as.filter (!out ·)) bs) : Matched fits may as bs := by
  induction as generalizing bs with
  | nil =>
      cases fit
      exact .nil
  | cons a as ih =>
      have others : ∀ a ∈ as, out a = true → may a := fun a' mem => may_ a' (List.mem_cons_of_mem _ mem)
      cases is : out a with
      | true =>
          rw [List.filter_cons_of_neg (by rw [is]; exact Bool.false_ne_true)] at fit
          exact .leftOut (may_ a (List.mem_cons_self ..) is) (ih others fit)
      | false =>
          rw [List.filter_cons_of_pos (by rw [is]; rfl)] at fit
          cases fit with
          | cons head tail => exact .kept head (ih others tail)

section

-- where each element that is there would fit if it had a property
variable {out : α → Bool} {P : α → Prop} {as : List α} {bs : List β}
  (would : List.Forall₂ (fun a b => fits a b ↔ P a) (as.filter (!out ·)) bs)
include would

theorem forall_of_matched (fitless : ∀ a b, fits a b → out a = false) (others : ∀ a ∈ as, out a = true → P a)
    (m : Matched fits may as bs) : ∀ a ∈ as, P a := by
  intro a mem
  cases is : out a with
  | true => exact others a mem is
  | false =>
      have fit := m.kept_all fitless would.length_eq.symm
      have both : List.Forall₂ (fun a _ => P a ∧ True) (as.filter (!out ·)) bs :=
        List.Forall₂.mp (fun _ _ fits_ iff => ⟨iff.mp fits_, trivial⟩) fit would
      have passes : a ∈ as.filter (!out ·) := List.mem_filter.mpr ⟨mem, by rw [is]; rfl⟩
      exact ((List.forall₂_and_left _ _).mp both).1 a passes

theorem of_forall (may_ : ∀ a ∈ as, out a = true → may a) (all : ∀ a ∈ as, P a) : Matched fits may as bs := by
  apply of_kept may_
  have both : List.Forall₂ (fun a b => P a ∧ (fits a b ↔ P a)) (as.filter (!out ·)) bs :=
    (List.forall₂_and_left _ _).mpr ⟨fun a mem => all a (List.mem_of_mem_filter mem), would⟩
  apply both.imp
  intro a b has
  exact has.2.mpr has.1

end

end Matched

end Libdap.Foundation
