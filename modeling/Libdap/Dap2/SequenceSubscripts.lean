import Libdap.Dap2.Constraint

/-! # Subscripts of Sequences

What a subscript asks for, and when that is what the Sequence is told. The numbers of a subscript are
unsigned, those of a Sequence are signed.
-/

namespace Libdap.Dap2

open Ints CeParser

namespace Index

def first : Index → Nat
  | .all => 0
  | .single n | .range n _ | .onward n | .strided n _ _ | .stridedOnward n _ => n.toNat

def step : Index → Nat
  | .single _ | .all | .range _ _ | .onward _ => 1
  | .strided _ s _ | .stridedOnward _ s => s.toNat

/-- There is no last row where there is a star. -/
def last : Index → Option Nat
  | .single n | .range _ n | .strided _ _ n => some n.toNat
  | .all | .onward _ | .stridedOnward _ _ => none

/-- The subscript is one for an array. -/
def InOrder (ix : Index) : Prop := 0 < ix.step ∧ ∀ m, ix.last = some m → ix.first ≤ m

/-- The rows that are asked for. Without a last one, the number of the last row is -1. -/
def asked (ix : Index) : Rows := ⟨ix.first, (ix.last.map Nat.cast).getD (-1), ix.step⟩

theorem first_lt (ix : Index) : ix.first < 2 ^ 32 := by
  cases ix with
  | all => decide
  | single n | range n | onward n | strided n | stridedOnward n => exact n.isLt

theorem step_lt (ix : Index) : ix.step < 2 ^ 32 := by
  cases ix with
  | all | single | range | onward => exact (by decide : 1 < 2 ^ 32)
  | strided _ s | stridedOnward _ s => exact s.isLt

theorem last_lt {ix : Index} {m : Nat} (last : ix.last = some m) : m < 2 ^ 32 := by
  cases ix with
  | all | onward | stridedOnward => cases last
  | single n | range _ n | strided _ _ n =>
      cases last
      exact n.isLt

/-- What comes of a subscript with a star, and of one without. -/
theorem process_star {ix : Index} (star : ix.last = none) (id : Nat) (s : State) :
    ∃ message, process_sequence_slices id [ix.slice] s = .error message := by
  cases ix with
  | all | onward | stridedOnward => exact ⟨_, rfl⟩
  | single | range | strided => cases star

theorem process_last {ix : Index} {m : Nat} (last : ix.last = some m) (id : Nat) (s : State) :
    process_sequence_slices id [ix.slice] s = setRowNumberConstraint id (i32 ix.first) (i32 m) (i32 ix.step) s := by
  cases ix with
  | all | onward | stridedOnward => cases last
  | single | range | strided =>
      cases last
      simp [Index.slice, makeArraySlice1, makeArraySlice2, makeArraySlice3, process_sequence_slices, Value.ofUInt32, Value.ui,
        first, step]

end Index

/-- The subscript is taken, with the rows that it asks for, or refused when it is not in order. -/
def Followed (ix : Index) (id : Nat) (s : State) : Prop :=
  (ix.InOrder → process_sequence_slices id [ix.slice] s = .ok (s.setRows id ix.asked)) ∧
    (¬ix.InOrder → ∃ message, process_sequence_slices id [ix.slice] s = .error message)

theorem setRows_inj {id : Nat} {r r' : Rows} {s : State} (same : s.setRows id r = s.setRows id r') : r = r' := by
  have at_ := congrFun (congrArg State.rows same) id
  simpa [State.setRows] using at_

/-- A subscript in order is followed when it has no star and its numbers are `int`s. One that is not in order is
refused when it has a star, or when its last row is before its first also as `int`s. -/
theorem followed_iff (ix : Index) (id : Nat) (s : State) : Followed ix id s ↔
    (ix.InOrder → ix.first < 2 ^ 31 ∧ ix.step < 2 ^ 31 ∧ ∃ m, ix.last = some m ∧ m < 2 ^ 31) ∧
      (¬ix.InOrder → ∀ m, ix.last = some m → i32 m < i32 ix.first) := by
  apply and_congr
  · apply imp_congr_right
    intro order
    cases last : ix.last with
    | none =>
        obtain ⟨message, refused⟩ := Index.process_star last id s
        rw [refused]
        apply iff_of_false
        · intro taken
          cases taken
        · rintro ⟨-, -, m, none_, -⟩
          cases none_
    | some m =>
        have ordered := order.2 m last
        have inside := Index.last_lt last
        have step := ix.step_lt
        rw [Index.process_last last, setRowNumberConstraint]
        constructor
        · intro taken
          split at taken
          · cases taken
          · have same := setRows_inj (Except.ok.inj taken)
            simp only [Index.asked, last, Option.map_some, Option.getD_some, Rows.mk.injEq] at same
            obtain ⟨first, stop, stride⟩ := same
            have small := (i32_fits ix.first).2
            have small' := (i32_fits m).2
            have small'' := (i32_fits ix.step).2
            exact ⟨by omega, by omega, m, rfl, by omega⟩
        · rintro ⟨first, stride, m', same, stop⟩
          cases same
          rw [i32_ofNat_of_lt first, i32_ofNat_of_lt stop, i32_ofNat_of_lt stride, if_neg (by omega)]
          simp only [Index.asked, last, Option.map_some, Option.getD_some]
          rfl
  · apply imp_congr_right
    intro disorder
    cases last : ix.last with
    | none =>
        apply iff_of_true (Index.process_star last id s)
        intro m none_
        cases none_
    | some m =>
        rw [Index.process_last last, setRowNumberConstraint]
        constructor
        · rintro ⟨message, refused⟩ m' same
          cases same
          split at refused
          · assumption
          · cases refused
        · intro less
          exact ⟨_, if_pos (less m rfl)⟩

/-- A star is refused. -/
theorem star_refused : ¬∀ ix id s, Followed ix id s := by
  intro all
  have followed := all .all 0 ⟨[], [], fun _ => ⟨[], 0, true⟩, fun _ => none, [], []⟩
  obtain ⟨-, -, m, last, -⟩ := ((followed_iff _ _ _).mp followed).1 ⟨Nat.one_pos, by intro m last; cases last⟩
  cases last

end Libdap.Dap2
