import Libdap.Dap2.SequenceWalk

/-! # Where the values of sent rows come from

The variables of a row that the walk gives are those of a row of the table, or were in the
Sequence before anything was read. What holds of all of these at each level holds of the rows.
-/

namespace Libdap.Dap2

variable {V : Type}

/-- The variables of a row of a table and of those below it, at each level of a kind. -/
def Row.Holds : List (V → Prop) → Row V → Prop
  | [], _ => True
  | P :: Ps, .mk vars child => P vars ∧ ∀ row ∈ child, Holds Ps row

/-- Those of a row that is sent. A row of the last level has none below it. -/
def BaseTypeRow.Holds : List (V → Prop) → BaseTypeRow V → Prop
  | [], _ => False
  | [P], .mk vars child => P vars ∧ child = []
  | P :: Q :: Ps, .mk vars child => P vars ∧ ∀ row ∈ child, Holds (Q :: Ps) row

/-- All that a Sequence and those below it hold, or will read. -/
def AllHold : List (V → Prop) → List (Sequence V) → Prop
  | P :: Ps, s :: below =>
      P s.vars ∧ (∀ row ∈ s.rows, row.Holds (P :: Ps)) ∧ (∀ row ∈ s.ahead, row.Holds (P :: Ps)) ∧ AllHold Ps below
  | _, _ => True

theorem allHold_map {f : Sequence V → Sequence V}
    (same : ∀ s, (f s).vars = s.vars ∧ (f s).rows = s.rows ∧ (f s).ahead = s.ahead) (Ps : List (V → Prop))
    (below : List (Sequence V)) : AllHold Ps (below.map f) ↔ AllHold Ps below := by
  induction below generalizing Ps with
  | nil => rfl
  | cons s below ih =>
      cases Ps with
      | nil => rfl
      | cons P Ps =>
          obtain ⟨vars, rows, ahead⟩ := same s
          simp only [List.map_cons, AllHold, vars, rows, ahead, ih]

namespace Sequence

theorem read_holds {P : V → Prop} {Ps : List (V → Prop)} {s : Sequence V} {below : List (Sequence V)}
    (holds : AllHold (P :: Ps) (s :: below)) : AllHold (P :: Ps) (s.read below).2.all := by
  induction below generalizing P Ps s with
  | nil =>
      obtain ⟨vars, rows, ahead, others⟩ := holds
      unfold read
      split
      · exact ⟨vars, rows, ahead, others⟩
      · split
        · exact ⟨vars, rows, rows, others⟩
        · rename_i row rest same
          rw [same, List.forall_mem_cons] at ahead
          exact ⟨ahead.1.1, rows, ahead.2, others⟩
  | cons c below ih =>
      obtain ⟨vars, rows, ahead, others⟩ := holds
      unfold read
      split
      · exact ⟨vars, rows, ahead, others⟩
      · split
        · exact ⟨vars, rows, rows, others⟩
        · rename_i child rest same
          rw [same, List.forall_mem_cons] at ahead
          refine ⟨ahead.1.1, rows, ahead.2, ?_⟩
          cases Ps with
          | nil => trivial
          | cons Q Ps => exact ih ⟨others.1, ahead.1.2, ahead.1.2, others.2.2.2⟩

end Sequence

namespace Nest

variable {P : V → Prop} {Ps : List (V → Prop)}

theorem setReadP_holds {state : Bool} {n : Nest V} (holds : AllHold (P :: Ps) n.all) :
    AllHold (P :: Ps) (n.setReadP state).all :=
  (allHold_map (f := fun s => { s with readP := state }) (fun _ => ⟨rfl, rfl, rfl⟩) _ n.all).mpr holds

theorem readRows_holds (selected : V → Bool) (i : Int) (fuel : Nat) {n : Nest V} (holds : AllHold (P :: Ps) n.all) :
    Ensures (fun r => AllHold (P :: Ps) r.2.all) (readRows selected i fuel n) := by
  induction fuel generalizing n with
  | zero => exact ensures_error
  | succ fuel ih =>
      unfold readRows
      split
      · have next : AllHold (P :: Ps) n.readNext.2.all := by
          unfold readNext
          split
          · exact holds
          · exact Sequence.read_holds holds
        generalize n.readNext = r at next
        obtain ⟨eof, m⟩ := r
        cases eof with
        | true => exact ensures_ok.mpr (setReadP_holds next)
        | false =>
            dsimp only
            split
            · contradiction
            · split
              · exact ih (setReadP_holds (n := m.setRowNumber _) next)
              · exact ih (setReadP_holds next)
      · exact ensures_ok.mpr holds

theorem readRow_holds (selected : V → Bool) (i : Int) {n : Nest V} (holds : AllHold (P :: Ps) n.all) :
    Ensures (fun r => AllHold (P :: Ps) r.2.all) (n.readRow selected i) := by
  unfold readRow
  split
  · exact ensures_error
  · split
    · exact ensures_ok.mpr holds
    · exact (readRows_holds selected i _ holds).bind fun r holds' => ensures_ok.mpr (setReadP_holds holds')

/-- A walk through what is of a kind, which gives rows of this kind. -/
def WalkHolds (Ps : List (V → Prop)) (w : Walked V) : Prop :=
  AllHold Ps w.nest.all ∧ ∀ row ∈ w.rows, row.Holds Ps

theorem leaf_holds {vars : V} (holds : P vars) : (BaseTypeRow.mk vars []).Holds (P :: Ps) := by
  cases Ps with
  | nil => exact ⟨holds, rfl⟩
  | cons Q Ps => exact ⟨holds, by simp⟩

theorem walkLeafRows_holds (selected : V → Bool) (fuel : Nat) (status : Bool) (i : Int) {n : Nest V}
    (holds : AllHold (P :: Ps) n.all) : Ensures (WalkHolds (P :: Ps)) (walkLeafRows selected fuel status i n) := by
  induction fuel generalizing status i n with
  | zero => exact ensures_error
  | succ fuel ih =>
      unfold walkLeafRows
      split
      · refine (readRow_holds selected _ (setReadP_holds holds)).bind fun r next => (ih r.1 _ next).bind fun w rest => ?_
        exact ensures_ok.mpr ⟨rest.1, List.forall_mem_cons.mpr ⟨leaf_holds holds.1, rest.2⟩⟩
      · exact ensures_ok.mpr ⟨holds, by simp⟩

theorem walkChild_holds {walk : Nest V → Except Failure (Walked V)} {n : Nest V}
    (inner : ∀ m : Nest V, AllHold Ps m.all → Ensures (WalkHolds Ps) (walk m))
    (holds : AllHold (P :: Ps) n.all) : Ensures (WalkHolds (P :: Ps)) (walkChild walk n) := by
  obtain ⟨self, below⟩ := n
  obtain ⟨vars, rows, ahead, others⟩ := holds
  unfold walkChild
  cases below with
  | nil => exact ensures_ok.mpr ⟨⟨vars, rows, ahead, others⟩, by simp⟩
  | cons c below =>
      dsimp only
      split
      · refine (inner ⟨c, below⟩ others).bind fun w kept => ?_
        split
        · exact ensures_ok.mpr ⟨⟨vars, rows, ahead, kept.1⟩, by simp⟩
        · rename_i some_
          refine ensures_ok.mpr ⟨⟨vars, rows, ahead, kept.1⟩, List.forall_mem_singleton.mpr ?_⟩
          cases Ps with
          | nil =>
              have none : w.rows = [] := List.eq_nil_iff_forall_not_mem.mpr kept.2
              exact absurd (List.isEmpty_iff.mpr none) some_
          | cons Q Ps => exact ⟨vars, kept.2⟩
      · exact ensures_error

theorem walkParentRows_holds {walk : V → Nest V → Except Failure (Walked V)}
    (inner : ∀ vars (m : Nest V), AllHold Ps m.all → Ensures (WalkHolds Ps) (walk vars m))
    (fuel : Nat) (status : Bool) (i : Int) {n : Nest V} (holds : AllHold (P :: Ps) n.all) :
    Ensures (WalkHolds (P :: Ps)) (walkParentRows walk fuel status i n) := by
  induction fuel generalizing status i n with
  | zero => exact ensures_error
  | succ fuel ih =>
      unfold walkParentRows
      split
      · refine (walkChild_holds (inner n.self.vars) holds).bind fun row first => ?_
        refine (readRow_holds _ _ (setReadP_holds first.1)).bind fun r next => (ih r.1 _ next).bind fun w rest => ?_
        exact ensures_ok.mpr ⟨rest.1, List.forall_mem_append.mpr ⟨first.2, rest.2⟩⟩
      · exact ensures_ok.mpr ⟨holds, by simp⟩

theorem walkParent_holds {walk : V → Nest V → Except Failure (Walked V)}
    (inner : ∀ vars (m : Nest V), AllHold Ps m.all → Ensures (WalkHolds Ps) (walk vars m))
    {n : Nest V} (holds : AllHold (P :: Ps) n.all) : Ensures (WalkHolds (P :: Ps)) (walkParent walk n) :=
  (readRow_holds _ _ holds).bind fun r next => (walkParentRows_holds inner _ r.1 _ next).bind fun _ rest =>
    ensures_ok.mpr rest

/-- What holds of all that is held holds of the rows of a walk. -/
theorem walk_holds (selection : List V → Bool) (depth : Nat) (around : List V) {n : Nest V} (Ps : List (V → Prop))
    (levels : Ps.length = depth + 1) (holds : AllHold Ps n.all) :
    Ensures (WalkHolds Ps) (walk selection depth around n) := by
  induction depth generalizing around n Ps with
  | zero =>
      obtain ⟨P, rfl⟩ := List.length_eq_one_iff.mp levels
      unfold walk
      split
      · exact (readRow_holds _ _ holds).bind fun r next => walkLeafRows_holds _ _ _ _ next
      · exact walkParent_holds (fun _ _ holds' => ensures_ok.mpr ⟨holds', by simp⟩) holds
  | succ depth ih =>
      cases Ps with
      | nil => cases levels
      | cons P Ps =>
          unfold walk
          split
          · exact (readRow_holds _ _ holds).bind fun r next => walkLeafRows_holds _ _ _ _ next
          · exact walkParent_holds (fun vars m holds' => ih (vars :: around) _ (Nat.succ.inj levels) holds') holds

end Nest

end Libdap.Dap2
