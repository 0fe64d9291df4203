import Mathlib.Tactic.Common

/-! # Computations side by side

Computations that give a result or fail. One goes in step with another when both fail in the
same way, or both give results and these stand in a relation. The other one may also give up,
and then nothing is said.
-/

namespace Libdap

variable {ε α β γ δ : Type}

/-- Every result is of this kind. -/
def Ensures (P : α → Prop) (x : Except ε α) : Prop := ∀ a, x = .ok a → P a

/-- Every failure is of this kind. -/
def Raises (P : ε → Prop) (x : Except ε α) : Prop := ∀ e, x = .error e → P e

/-- Both fail alike, or give related results, unless the second one gives up. -/
def InStep (givenUp : ε) (R : α → β → Prop) : Except ε α → Except ε β → Prop
  | .ok a, .ok b => R a b
  | .error e, .error f => f = givenUp ∨ e = f
  | .ok _, .error f => f = givenUp
  | .error _, .ok _ => False

@[simp]
theorem ok_bind (a : α) (f : α → Except ε β) : (Except.ok a >>= f) = f a := rfl

@[simp]
theorem ensures_ok {P : α → Prop} {a : α} : Ensures P (.ok a : Except ε α) ↔ P a := by simp [Ensures]

@[simp]
theorem ensures_error {P : α → Prop} {e : ε} : Ensures P (.error e : Except ε α) := by simp [Ensures]

@[simp]
theorem ensures_pure {P : α → Prop} {a : α} : Ensures P (pure a : Except ε α) ↔ P a := ensures_ok

theorem Ensures.mono {P Q : α → Prop} {x : Except ε α} (h : Ensures P x) (imp : ∀ a, P a → Q a) : Ensures Q x :=
  fun a ok => imp a (h a ok)

theorem Ensures.bind {P : α → Prop} {Q : β → Prop} {x : Except ε α} {f : α → Except ε β}
    (h : Ensures P x) (next : ∀ a, P a → Ensures Q (f a)) : Ensures Q (x >>= f) := by
  cases x with
  | error e => exact ensures_error
  | ok a => exact next a (h a rfl)

theorem raises_ok {P : ε → Prop} (a : α) : Raises P (.ok a) := fun _ same => nomatch same

@[simp]
theorem raises_error {P : ε → Prop} {e : ε} : Raises P (.error e : Except ε α) ↔ P e := by simp [Raises]

theorem Raises.bind {P : ε → Prop} {x : Except ε α} {f : α → Except ε β} (h : Raises P x)
    (next : ∀ a, x = .ok a → Raises P (f a)) : Raises P (x >>= f) := by
  cases x with
  | error e => exact raises_error.mpr (h e rfl)
  | ok a => exact next a rfl

namespace InStep

variable {givenUp : ε} {R R' : α → β → Prop} {T : γ → δ → Prop} {x : Except ε α} {y : Except ε β}

theorem ok {a : α} {b : β} (related : R a b) : InStep givenUp R (.ok a) (.ok b) := related

theorem error (e : ε) : InStep givenUp R (.error e) (.error e) := .inr rfl

theorem giveUp (x : Except ε α) : InStep givenUp R x (.error givenUp) := by
  cases x with
  | ok a => exact rfl
  | error e => exact .inl rfl

theorem bind {f : α → Except ε γ} {g : β → Except ε δ} (h : InStep givenUp R x y)
    (next : ∀ a b, R a b → InStep givenUp T (f a) (g b)) : InStep givenUp T (x >>= f) (y >>= g) := by
  match x, y, h with
  | .ok a, .ok b, related => exact next a b related
  | .error e, .error _, .inr rfl => exact error e
  | .error _, .error _, .inl rfl => exact giveUp _
  | .ok _, .error _, rfl => exact giveUp _

/-- More is done on one side only. -/
theorem bind_left {T : γ → β → Prop} {f : α → Except ε γ} (h : InStep givenUp R x y)
    (next : ∀ a b, R a b → InStep givenUp T (f a) (.ok b)) : InStep givenUp T (x >>= f) y := by
  match x, y, h with
  | .ok a, .ok b, related => exact next a b related
  | .error e, .error _, .inr rfl => exact error e
  | .error _, .error _, .inl rfl => exact giveUp _
  | .ok _, .error _, rfl => exact giveUp _

theorem bind_right {T : α → δ → Prop} {g : β → Except ε δ} (h : InStep givenUp R x y)
    (next : ∀ a b, R a b → InStep givenUp T (.ok a) (g b)) : InStep givenUp T x (y >>= g) := by
  match x, y, h with
  | .ok a, .ok b, related => exact next a b related
  | .error e, .error _, .inr rfl => exact error e
  | .error _, .error _, .inl rfl => exact giveUp _
  | .ok _, .error _, rfl => exact giveUp _

theorem mono (h : InStep givenUp R x y) (imp : ∀ a b, R a b → R' a b) : InStep givenUp R' x y := by
  match x, y, h with
  | .ok a, .ok b, related => exact imp a b related
  | .error e, .error _, .inr rfl => exact error e
  | .error _, .error _, .inl rfl => exact giveUp _
  | .ok _, .error _, rfl => exact giveUp _

/-- What is known of the results of either side. -/
theorem ensures {P : α → Prop} {Q : β → Prop} (h : InStep givenUp R x y) (hx : Ensures P x) (hy : Ensures Q y) :
    InStep givenUp (fun a b => R a b ∧ P a ∧ Q b) x y := by
  match x, y, h with
  | .ok a, .ok b, related => exact ok ⟨related, hx a rfl, hy b rfl⟩
  | .error e, .error _, .inr rfl => exact error e
  | .error _, .error _, .inl rfl => exact giveUp _
  | .ok _, .error _, rfl => exact giveUp _

/-- Results that are related in one way and in another are so in both. -/
theorem of_forall {ι : Type} (i : ι) {R : ι → α → β → Prop} (h : ∀ i, InStep givenUp (R i) x y) :
    InStep givenUp (fun a b => ∀ i, R i a b) x y := by
  match x, y, h i, h with
  | .ok _, .ok _, _, h => exact ok h
  | .error e, .error _, .inr rfl, _ => exact error e
  | .error _, .error _, .inl rfl, _ => exact giveUp _
  | .ok _, .error _, rfl, _ => exact giveUp _

theorem map_right (f : α → β) (x : Except ε α) : InStep givenUp (fun a b => f a = b) x (x.map f) := by
  cases x with
  | error e => exact error e
  | ok a => exact ok rfl

/-- Without giving up, the other one fails too. -/
theorem of_error {e : ε} (h : InStep givenUp R x (.error e)) (other : e ≠ givenUp) : x = .error e := by
  match x, h with
  | .error _, .inr rfl => rfl
  | .error _, .inl same => exact absurd same other
  | .ok _, same => exact absurd same other

theorem of_ok {b : β} (h : InStep givenUp R x (.ok b)) : ∃ a, x = .ok a ∧ R a b := by
  match x, h with
  | .ok a, related => exact ⟨a, rfl, related⟩

end InStep

end Libdap
