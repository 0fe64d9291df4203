import Libdap.Dap2.SequenceWalk

/-! # Reading the rows of nested Sequences

A Sequence stands before the rows that it has not counted yet. `read_row` goes on to the row
of a number among those that are selected, or to the end of the instance. Reading a row of a
parent brings each Sequence below it to the first row of its instance, if it has one.
-/

namespace Libdap.Dap2

variable {V : Type}

def Row.vars : Row V → V
  | mk vars _ => vars

def Row.child : Row V → List (Row V)
  | mk _ child => child

/-- The row of a number among the selected ones, and what comes after it. -/
def seek {α : Type} (selected : α → Bool) : Nat → List α → Option (α × List α)
  | _, [] => none
  | k, a :: as =>
      if selected a then
        match k with
        | 0 => some (a, as)
        | k + 1 => seek selected k as
      else seek selected k as

/-- Row numbers that have been reset, of the parents or of all Sequences. -/
def Idle (leafToo : Bool) (s : Sequence V) : Prop :=
  s.leafSequence = false ∨ leafToo = true → s.rowNumber = -1

namespace Nest

/-- Whether the variables of a nest are read. -/
def AllReadP (state : Bool) (n : Nest V) : Prop := ∀ s ∈ n.all, s.readP = state

theorem allReadP_setReadP (state : Bool) (n : Nest V) : (n.setReadP state).AllReadP state := by
  simp [AllReadP, all, setReadP]

/-- The Sequences from a child on, after the row of its parent with this instance was read. -/
def Positioned : List (Row V) → List (Sequence V) → Prop
  | _, [] => True
  | [], c :: _ => c.rows = [] ∧ c.ahead = []
  | row :: ahead, c :: below =>
      c.rows = row :: ahead ∧ c.ahead = ahead ∧ c.vars = row.vars ∧ c.unsentData = true ∧
        Positioned row.child below

/-- The row of a Sequence that has been read. -/
structure IsAt (row : Row V) (n : Nest V) : Prop where
  vars : n.self.vars = row.vars
  unsent : n.self.unsentData = true
  below : Positioned row.child n.below

theorem idle_setReadP {leafToo state : Bool} {n : Nest V} (idle : ∀ c ∈ n.below, Idle leafToo c) :
    ∀ c ∈ (n.setReadP state).below, Idle leafToo c := List.forall_mem_map.mpr idle

/-- The rows that have not been counted: with the one that has been read, if there is one. -/
def Stands (n : Nest V) (rows : List (Row V)) : Prop :=
  (n.AllReadP false ∧ rows = n.self.ahead) ∨
    (n.AllReadP true ∧ ∃ row, rows = row :: n.self.ahead ∧ n.IsAt row)

end Nest

namespace Sequence

open Nest

/-- What `read` does for a row. -/
theorem read_row {s : Sequence V} {below : List (Sequence V)} {row : Row V} {ahead : List (Row V)}
    (unread : (⟨s, below⟩ : Nest V).AllReadP false) (rows : s.ahead = row :: ahead) :
    ∃ below', s.read below = (false, ⟨s.loaded row.vars ahead, below'⟩) ∧ Positioned row.child below' := by
  have unread' : s.readP = false := unread s List.mem_cons_self
  obtain ⟨vars, child⟩ := row
  induction below generalizing s vars child ahead with
  | nil => exact ⟨[], by simp [read, unread', rows, Row.vars], trivial⟩
  | cons c below ih =>
      have others := (List.forall_mem_cons.mp unread).2
      have first : c.readP = false := others c List.mem_cons_self
      have read_ : s.read (c :: below) = (false, ⟨s.loaded vars ahead,
          ((c.started child).read below).2.self :: ((c.started child).read below).2.below⟩) := by
        simp [read, unread', rows]
      cases child with
      | nil =>
          have ends : (c.started []).read below = (true, ⟨(c.started []).ended, below⟩) := by
            have unreadC : (c.started []).readP = false := first
            have noRows : (c.started []).ahead = [] := rfl
            cases below <;> simp [read, unreadC, noRows]
          rw [ends] at read_
          exact ⟨_, read_, rfl, rfl⟩
      | cons row child =>
          obtain ⟨vars', child'⟩ := row
          have started : (⟨c.started (.mk vars' child' :: child), below⟩ : Nest V).AllReadP false :=
            List.forall_mem_cons.mpr ⟨first, (List.forall_mem_cons.mp others).2⟩
          obtain ⟨below', readBelow, positioned⟩ := ih started first vars' child' rfl
          rw [readBelow] at read_
          exact ⟨_, read_, rfl, rfl, rfl, rfl, positioned⟩

/-- `read` leaves row numbers reset. -/
theorem read_idle {leafToo : Bool} (s : Sequence V) {below : List (Sequence V)}
    (idle : ∀ c ∈ below, Idle leafToo c) :
    (Idle leafToo s → Idle leafToo (s.read below).2.self) ∧ ∀ c ∈ (s.read below).2.below, Idle leafToo c := by
  induction below generalizing s with
  | nil =>
      unfold read
      split
      · exact ⟨id, idle⟩
      · split
        · exact ⟨fun _ _ => rfl, idle⟩
        · exact ⟨id, idle⟩
  | cons c below ih =>
      have idle' := List.forall_mem_cons.mp idle
      unfold read
      split
      · exact ⟨id, idle⟩
      · split
        · exact ⟨fun _ _ => rfl, idle⟩
        · rename_i child ahead same
          have inner := ih (c.started child) idle'.2
          exact ⟨id, List.forall_mem_cons.mpr ⟨inner.1 idle'.1, inner.2⟩⟩

end Sequence

namespace Nest

theorem positioned_setReadP (state : Bool) (child : List (Row V)) (below : List (Sequence V)) :
    Positioned child (below.map fun s => { s with readP := state }) ↔ Positioned child below := by
  induction below generalizing child with
  | nil => rfl
  | cons c below ih =>
      cases child with
      | nil => rfl
      | cons row child => simp only [List.map_cons, Positioned, ih]

@[simp]
theorem isAt_setReadP {state : Bool} {row : Row V} {n : Nest V} : (n.setReadP state).IsAt row ↔ n.IsAt row :=
  ⟨fun h => ⟨h.vars, h.unsent, (positioned_setReadP _ _ _).mp h.below⟩,
    fun h => ⟨h.vars, h.unsent, (positioned_setReadP _ _ _).mpr h.below⟩⟩

theorem readRows_idle {leafToo : Bool} (selected : V → Bool) (i : Int) (fuel : Nat) {n : Nest V}
    (idle : ∀ c ∈ n.below, Idle leafToo c) :
    Ensures (fun r => ∀ c ∈ r.2.below, Idle leafToo c) (readRows selected i fuel n) := by
  induction fuel generalizing n with
  | zero => exact ensures_error
  | succ fuel ih =>
      unfold readRows
      split
      · have next : ∀ c ∈ n.readNext.2.below, Idle leafToo c := by
          unfold readNext
          split
          · exact idle
          · exact (Sequence.read_idle n.self idle).2
        generalize n.readNext = r at next
        obtain ⟨eof, m⟩ := r
        cases eof with
        | true => exact ensures_ok.mpr (idle_setReadP next)
        | false =>
            dsimp only
            split
            · contradiction
            · split
              · exact ih (idle_setReadP (n := m.setRowNumber _) next)
              · exact ih (idle_setReadP next)
      · exact ensures_ok.mpr idle

/-- `read_row` leaves the row numbers below reset. -/
theorem readRow_idle {leafToo : Bool} (selected : V → Bool) (i : Int) {n : Nest V}
    (idle : ∀ c ∈ n.below, Idle leafToo c) :
    Ensures (fun r => ∀ c ∈ r.2.below, Idle leafToo c) (n.readRow selected i) := by
  unfold readRow
  split
  · exact ensures_error
  · split
    · exact ensures_ok.mpr idle
    · exact (readRows_idle selected i _ idle).bind fun r idle' => ensures_ok.mpr (idle_setReadP idle')

theorem readNext_row {n : Nest V} {row : Row V} {rest : List (Row V)} (stands : n.Stands (row :: rest)) :
    ∃ m, n.readNext = (false, m) ∧ m.IsAt row ∧ m.self.ahead = rest ∧ m.self.rowNumber = n.self.rowNumber := by
  obtain ⟨unread, same⟩ | ⟨isRead, first, same, isAt⟩ := stands
  · have self : n.self.readP = false := unread n.self List.mem_cons_self
    obtain ⟨below, read, positioned⟩ := Sequence.read_row unread same.symm
    refine ⟨⟨n.self.loaded row.vars rest, below⟩, ?_, ⟨rfl, rfl, positioned⟩, rfl, rfl⟩
    simp [readNext, self, read]
  · obtain ⟨rfl, rfl⟩ := List.cons.inj same
    have self : n.self.readP = true := isRead n.self List.mem_cons_self
    exact ⟨n, by simp [readNext, self], isAt, rfl, rfl⟩

theorem readNext_end {n : Nest V} (stands : n.Stands []) :
    ∃ m, n.readNext = (true, m) ∧ m.self.rowNumber = -1 := by
  obtain ⟨unread, same⟩ | ⟨-, first, same, -⟩ := stands
  · have self : n.self.readP = false := unread n.self List.mem_cons_self
    refine ⟨⟨n.self.ended, n.below⟩, ?_, rfl⟩
    obtain ⟨s, below⟩ := n
    cases below <;> simp_all [readNext, Sequence.read]
  · cases same

/-- After a row, a nest stands before the others. -/
theorem stands_setReadP {n : Nest V} : (n.setReadP false).Stands n.self.ahead :=
  .inl ⟨allReadP_setReadP false n, rfl⟩

/-- One turn of the loop: a row is counted if it is selected. -/
theorem readRows_row {selected : V → Bool} {i : Int} {n : Nest V} {row : Row V} {rest : List (Row V)}
    (stands : n.Stands (row :: rest)) (more : n.self.rowNumber < i) (fuel : Nat) :
    ∃ m, readRows selected i (fuel + 1) n = readRows selected i fuel m ∧ m.Stands rest ∧ m.IsAt row ∧
      m.self.ahead = rest ∧ m.self.rowNumber = n.self.rowNumber + (if selected row.vars then 1 else 0) := by
  obtain ⟨m, next, isAt, ahead, count⟩ := readNext_row stands
  have step : readRows selected i (fuel + 1) n =
      if selected row.vars then readRows selected i fuel ((m.setRowNumber (n.self.rowNumber + 1)).setReadP false)
      else readRows selected i fuel (m.setReadP false) := by
    rw [readRows, if_pos more, next, ← isAt.vars, ← count]
    rfl
  rw [step]
  by_cases chosen : selected row.vars
  · rw [if_pos chosen, if_pos chosen]
    refine ⟨_, rfl, ?_, isAt_setReadP.mpr ⟨isAt.vars, isAt.unsent, isAt.below⟩, ahead, rfl⟩
    rw [← ahead]
    exact stands_setReadP
  · rw [if_neg chosen, if_neg chosen]
    refine ⟨_, rfl, ?_, isAt_setReadP.mpr isAt, ahead, by rw [Int.add_zero]; exact count⟩
    rw [← ahead]
    exact stands_setReadP

theorem readRows_some {selected : V → Bool} {i : Int} {rows rest : List (Row V)} {row : Row V} {n : Nest V}
    {k fuel : Nat} (stands : n.Stands rows) (number : i = n.self.rowNumber + 1 + k)
    (found : seek (fun r => selected r.vars) k rows = some (row, rest)) (enough : rows.length < fuel) :
    ∃ m, readRows selected i fuel n = .ok (false, m) ∧ m.IsAt row ∧ m.self.ahead = rest ∧
      m.self.rowNumber = i := by
  induction rows generalizing n k fuel with
  | nil => cases found
  | cons first rows ih =>
      obtain ⟨fuel, rfl⟩ := Nat.exists_eq_succ_of_ne_zero (Nat.ne_zero_of_lt enough)
      rw [List.length_cons, Nat.succ_eq_add_one, Nat.add_lt_add_iff_right] at enough
      obtain ⟨m, step, stands', isAt, ahead, count⟩ :=
        readRows_row stands (i := i) (by omega) fuel
      rw [step]
      unfold seek at found
      split at found
      · rename_i chosen
        rw [if_pos chosen] at count
        cases k with
        | zero =>
            cases found
            obtain ⟨fuel, rfl⟩ := Nat.exists_eq_succ_of_ne_zero (Nat.ne_zero_of_lt enough)
            exact ⟨m, by rw [readRows, if_neg (by omega)], isAt, ahead, by omega⟩
        | succ k =>
            obtain ⟨m', reads, isAt', ahead', count'⟩ := ih stands' (by omega) found enough
            exact ⟨m', reads, isAt', ahead', count'⟩
      · rename_i other
        rw [if_neg other] at count
        obtain ⟨m', reads, isAt', ahead', count'⟩ := ih stands' (by omega) found enough
        exact ⟨m', reads, isAt', ahead', count'⟩

theorem readRows_none {selected : V → Bool} {i : Int} {rows : List (Row V)} {n : Nest V}
    {k fuel : Nat} (stands : n.Stands rows) (number : i = n.self.rowNumber + 1 + k)
    (none_ : seek (fun r => selected r.vars) k rows = none) (enough : rows.length < fuel) :
    ∃ m, readRows selected i fuel n = .ok (true, m) ∧ m.self.rowNumber = -1 := by
  induction rows generalizing n k fuel with
  | nil =>
      obtain ⟨fuel, rfl⟩ := Nat.exists_eq_succ_of_ne_zero (Nat.ne_zero_of_lt enough)
      obtain ⟨m, next, count⟩ := readNext_end stands
      refine ⟨m.setReadP false, ?_, count⟩
      rw [readRows, if_pos (by omega), next]
      rfl
  | cons first rows ih =>
      obtain ⟨fuel, rfl⟩ := Nat.exists_eq_succ_of_ne_zero (Nat.ne_zero_of_lt enough)
      rw [List.length_cons, Nat.succ_eq_add_one, Nat.add_lt_add_iff_right] at enough
      obtain ⟨m, step, stands', -, -, count⟩ :=
        readRows_row stands (i := i) (by omega) fuel
      rw [step]
      unfold seek at none_
      split at none_
      · rename_i chosen
        rw [if_pos chosen] at count
        cases k with
        | zero => cases none_
        | succ k =>
            obtain ⟨m', reads, count'⟩ := ih stands' (by omega) none_ enough
            exact ⟨m', reads, count'⟩
      · rename_i other
        rw [if_neg other] at count
        obtain ⟨m', reads, count'⟩ := ih stands' (by omega) none_ enough
        exact ⟨m', reads, count'⟩

theorem Stands.length_le {n : Nest V} {rows : List (Row V)} (stands : n.Stands rows) :
    rows.length ≤ n.self.ahead.length + 1 := by
  obtain ⟨-, rfl⟩ | ⟨-, row, rfl, -⟩ := stands
  · omega
  · rfl

/-- `read_row` finds the row of a number, -/
theorem readRow_some {selected : V → Bool} {rows rest : List (Row V)} {row : Row V} {n : Nest V} {k : Nat}
    (stands : n.Stands rows) (found : seek (fun r => selected r.vars) k rows = some (row, rest)) :
    ∃ m, n.readRow selected (n.self.rowNumber + 1 + k) = .ok (true, m) ∧ m.IsAt row ∧ m.self.ahead = rest ∧
      m.self.rowNumber = n.self.rowNumber + 1 + k ∧ m.AllReadP true := by
  obtain ⟨m, reads, isAt, ahead, count⟩ := readRows_some stands rfl found
    (Nat.lt_succ_of_le stands.length_le)
  refine ⟨m.setReadP true, ?_, isAt_setReadP.mpr isAt, ahead, count, allReadP_setReadP true m⟩
  rw [readRow, if_neg (by omega), if_neg (by omega), reads]
  rfl

/-- or comes to the end of the instance. -/
theorem readRow_none {selected : V → Bool} {rows : List (Row V)} {n : Nest V} {k : Nat}
    (stands : n.Stands rows) (none_ : seek (fun r => selected r.vars) k rows = none) :
    ∃ m, n.readRow selected (n.self.rowNumber + 1 + k) = .ok (false, m) ∧ m.self.rowNumber = -1 := by
  obtain ⟨m, reads, count⟩ := readRows_none stands rfl none_ (Nat.lt_succ_of_le stands.length_le)
  refine ⟨m.setReadP true, ?_, count⟩
  rw [readRow, if_neg (by omega), if_neg (by omega), reads]
  rfl

/-- The turns that the loop of `read_row` has left. -/
def turns (n : Nest V) : Nat := n.self.ahead.length + if n.self.readP then 1 else 0

theorem turns_setReadP (n : Nest V) : (n.setReadP false).turns = n.self.ahead.length := by simp [turns, setReadP]

/-- The loop ends, with fewer rows ahead when it has found one. -/
theorem readRows_ends (selected : V → Bool) (i : Int) (fuel : Nat) {n : Nest V} (enough : n.turns < fuel) :
    ∃ eof m, readRows selected i fuel n = .ok (eof, m) ∧
      (n.self.rowNumber < i → eof = false → m.self.ahead.length < n.turns) := by
  induction fuel generalizing n with
  | zero => cases enough
  | succ fuel ih =>
      unfold readRows
      by_cases more : n.self.rowNumber < i
      swap
      · exact ⟨false, n, if_neg more, fun less => absurd less more⟩
      rw [if_pos more]
      have fewer : n.readNext.1 = false → n.readNext.2.self.ahead.length < n.turns := by
        unfold readNext turns
        obtain ⟨s, below⟩ := n
        intro found
        by_cases isRead : s.readP = true
        · simp [isRead]
        · have isRead_ : s.readP = false := Bool.eq_false_iff.mpr isRead
          cases rows : s.ahead with
          | nil => cases below <;> simp_all [Sequence.read]
          | cons row ahead =>
              obtain ⟨vars, child⟩ := row
              cases below <;> simp [Sequence.read, isRead_, rows, Sequence.loaded]
      generalize n.readNext = r at fewer
      obtain ⟨eof, m⟩ := r
      cases eof with
      | true => exact ⟨true, m.setReadP false, rfl, fun _ same => absurd same Bool.true_eq_false.mp⟩
      | false =>
          have next : ∀ k : Nest V, k.self.ahead = m.self.ahead → ∃ eof m',
              readRows selected i fuel (k.setReadP false) = .ok (eof, m') ∧
                (n.self.rowNumber < i → eof = false → m'.self.ahead.length < n.turns) := by
            intro k same
            have less := fewer rfl
            rw [← same, ← turns_setReadP] at less
            obtain ⟨eof, m', reads, ahead⟩ := ih (n := k.setReadP false) (by omega)
            refine ⟨eof, m', reads, fun _ found => ?_⟩
            by_cases again : (k.setReadP false).self.rowNumber < i
            · exact (ahead again found).trans less
            · obtain ⟨fuel, rfl⟩ := Nat.exists_eq_succ_of_ne_zero (show fuel ≠ 0 by omega)
              rw [readRows, if_neg again] at reads
              cases reads
              rwa [turns_setReadP] at less
          dsimp only
          rw [if_neg Bool.false_ne_true]
          split
          · exact next (m.setRowNumber _) rfl
          · exact next m rfl

/-- `read_row` fails only by backing up. -/
theorem readRow_raises (selected : V → Bool) (i : Int) (n : Nest V) :
    Raises (· = .backingUp) (n.readRow selected i) := by
  unfold readRow
  split
  · exact raises_error.mpr rfl
  · split
    · exact raises_ok _
    · have enough : n.turns < n.self.ahead.length + 2 := by
        unfold turns
        split <;> omega
      obtain ⟨eof, m, reads, -⟩ := readRows_ends selected i _ enough
      rw [reads]
      exact raises_ok _

/-- Every row that it finds is one less ahead. -/
theorem readRow_ahead (selected : V → Bool) (i : Int) (n : Nest V) :
    Ensures (fun r => r.1 = true → r.2.self.ahead.length < n.self.ahead.length)
      ((n.setReadP false).readRow selected i) := by
  unfold readRow
  split
  · exact ensures_error
  · split
    · exact ensures_ok.mpr (fun found => nomatch found)
    · rename_i forward other
      obtain ⟨eof, m, reads, ahead⟩ := readRows_ends selected i (n.self.ahead.length + 2)
        (n := n.setReadP false) (by rw [turns_setReadP]; omega)
      have same : (n.setReadP false).self.ahead = n.self.ahead := rfl
      rw [same, reads]
      refine ensures_ok.mpr fun found => ?_
      have less := ahead (by omega) (by simpa using found)
      rwa [turns_setReadP] at less

end Nest

end Libdap.Dap2
