import Libdap.Dap2.SequenceReading

/-! # The rows of a table that a request is for

The selected rows of a leaf with the numbers of the constraint, and the rows of a parent with
such numbers that have some below them. The walk gives these rows when each instance that it
comes to has a row, and no instance of the leaf is left before its end for another one.
-/

namespace Libdap.Dap2

open Ints

variable {V : Type}

/-! ## Numbers of rows -/

theorem filter_all (rows : List (Row V)) : rows.filter (fun _ => true) = rows := List.filter_true rows

namespace Tags

def firstRow (t : Tags) : Int := if t.startingRowNumber ≠ -1 then t.startingRowNumber else 0

/-- A number that the loops come to, if they do not end before. -/
def Reached (t : Tags) (i : Nat) : Prop := t.firstRow ≤ i ∧ t.rowStride ∣ i - t.firstRow

/-- The numbers of the rows that are asked for. -/
def Picks (t : Tags) (i : Nat) : Prop := t.Reached i ∧ (t.endingRowNumber = -1 ∨ i ≤ t.endingRowNumber)

instance (t : Tags) (i : Nat) : Decidable (t.Reached i) := inferInstanceAs (Decidable (_ ∧ _))

instance (t : Tags) (i : Nat) : Decidable (t.Picks i) := inferInstanceAs (Decidable (_ ∧ _))

/-- The rows that are asked for, of rows with numbers from `i` on. -/
def pickedFrom {α : Type} (t : Tags) : Nat → List α → List α
  | _, [] => []
  | i, a :: as => if t.Picks i then a :: pickedFrom t (i + 1) as else pickedFrom t (i + 1) as

def picked {α : Type} (t : Tags) (rows : List α) : List α := t.pickedFrom 0 rows

/-- A constraint that can be set, of numbers that are not negative, or none. -/
structure Valid (t : Tags) : Prop where
  first : 0 ≤ t.firstRow ∧ t.firstRow < 2 ^ 31
  stride : 0 ≤ t.rowStride ∧ t.rowStride < 2 ^ 31
  last : t.endingRowNumber = -1 ∨ t.firstRow ≤ t.endingRowNumber

/-- The loops come to the end of so many rows, unless they are stopped at a row before it. -/
def Cut (t : Tags) (count : Nat) : Prop :=
  (∃ i < count, t.Reached i ∧ t.endingRowNumber ≠ -1 ∧ t.endingRowNumber < i) ∨
    t.rowStride = 0 ∧ t.firstRow < count

/-- The number after a row that is asked for is an `int`. -/
def Counts (t : Tags) (count : Nat) : Prop := ∀ i < count, t.Picks i → i + t.rowStride < 2 ^ 31

instance (t : Tags) (count : Nat) : Decidable (t.Cut count) := inferInstanceAs (Decidable (_ ∨ _))

instance (t : Tags) (count : Nat) : Decidable (t.Counts count) :=
  inferInstanceAs (Decidable (∀ i < count, t.Picks i → _))

variable {α : Type} {t : Tags}

theorem pickedFrom_skip {i j : Nat} (rows : List α) (none_ : ∀ m, i ≤ m → m < i + j → ¬t.Picks m) :
    t.pickedFrom i rows = t.pickedFrom (i + j) (rows.drop j) := by
  induction j generalizing i rows with
  | zero => simp
  | succ j ih =>
      cases rows with
      | nil => simp [pickedFrom]
      | cons a rows =>
          rw [pickedFrom, if_neg (none_ i le_rfl (by omega)),
            ih rows (fun m low high => none_ m (by omega) (by omega)), List.drop_succ_cons]
          congr 1
          omega

theorem pickedFrom_eq_nil {i : Nat} {rows : List α} (none_ : ∀ m, i ≤ m → m < i + rows.length → ¬t.Picks m) :
    t.pickedFrom i rows = [] := by
  rw [pickedFrom_skip rows none_, List.drop_length]
  rfl

theorem mem_of_mem_pickedFrom {i : Nat} {rows : List α} {a : α} (mem : a ∈ t.pickedFrom i rows) : a ∈ rows := by
  induction rows generalizing i with
  | nil => exact mem
  | cons b rows ih =>
      rw [pickedFrom] at mem
      split at mem
      · rw [List.mem_cons] at mem ⊢
        exact mem.imp_right ih
      · exact List.mem_cons_of_mem b (ih mem)

/-- After a number that is reached come numbers that are not, up to the next one. -/
theorem not_picks_between {k m : Nat} (reached : t.Reached k) (above : k < m) (below : m < k + t.rowStride) :
    ¬t.Picks m := by
  rintro ⟨⟨-, divides⟩, -⟩
  have divides' : t.rowStride ∣ m - k := by
    have difference := Int.dvd_sub divides reached.2
    rwa [show (m : Int) - t.firstRow - (k - t.firstRow) = m - k by omega] at difference
  have := Int.le_of_dvd (by omega) divides'
  omega

theorem not_picks_before {m : Nat} (before : m < t.firstRow) : ¬t.Picks m := by
  rintro ⟨⟨after, -⟩, -⟩
  omega

/-- Without a stride only the first row is asked for. -/
theorem not_picks_stride {k m : Nat} (still : t.rowStride = 0) (reached : t.Reached k) (above : k < m) :
    ¬t.Picks m := by
  rintro ⟨⟨-, divides⟩, -⟩
  have same := reached.2
  rw [still, zero_dvd_iff] at divides same
  omega

theorem not_picks_end {k m : Nat} (ends : t.endingRowNumber ≠ -1 ∧ t.endingRowNumber < k) (above : k ≤ m) :
    ¬t.Picks m := by
  rintro ⟨-, none | before⟩
  · exact ends.1 none
  · omega

end Tags

/-! ## Seeking -/

section

variable {α : Type} {selected : α → Bool}

theorem seek_some {k : Nat} {rows rest : List α} {a : α} (found : seek selected k rows = some (a, rest)) :
    (rows.filter selected).drop k = a :: rest.filter selected := by
  induction rows generalizing k with
  | nil => cases found
  | cons b rows ih =>
      unfold seek at found
      split at found
      · rename_i chosen
        rw [List.filter_cons_of_pos chosen]
        cases k with
        | zero =>
            cases found
            rfl
        | succ k => exact ih found
      · rename_i other
        rw [List.filter_cons_of_neg other]
        exact ih found

theorem seek_none {k : Nat} {rows : List α} (none_ : seek selected k rows = none) :
    (rows.filter selected).length ≤ k := by
  induction rows generalizing k with
  | nil => exact Nat.zero_le k
  | cons b rows ih =>
      unfold seek at none_
      split at none_
      · rename_i chosen
        rw [List.filter_cons_of_pos chosen, List.length_cons]
        cases k with
        | zero => cases none_
        | succ k => exact Nat.succ_le_succ (ih none_)
      · rename_i other
        rw [List.filter_cons_of_neg other]
        exact ih none_

end

/-! ## From one row to the next -/

namespace Nest

/-- A nest is at a row with a number, before rows of which these are selected. -/
structure AtRow (selected : V → Bool) (k : Nat) (row : Row V) (rest : List (Row V)) (n : Nest V) : Prop where
  isAt : n.IsAt row
  isRead : n.AllReadP true
  number : n.self.rowNumber = k
  ahead : n.self.ahead.filter (fun r => selected r.vars) = rest
  reached : n.self.tags.Reached k

/-- The outcomes of `read_row`: there is a row with a later number, and those between are not
    asked for, or there is none. -/
inductive Reads (selected : V → Bool) (t : Tags) (first : Nat) (rows : List (Row V)) (i : Int) :
    Bool × Nest V → Prop where
  | row {m : Nest V} {k : Nat} {row : Row V} {rest : List (Row V)} (number : i = k) (atRow : m.AtRow selected k row rest)
      (picked : t.pickedFrom first rows = t.pickedFrom k (row :: rest))
      (count : first + rows.length = k + 1 + rest.length) (above : first ≤ k) : Reads selected t first rows i (true, m)
  | none {m : Nest V} (picked : t.pickedFrom first rows = [])
      (ends : m.self.rowNumber = -1 ∨ t.rowStride = 0 ∧ t.firstRow < first) :
      Reads selected t first rows i (false, m)

variable {selected : V → Bool}

theorem tags_of_readRow {i : Int} {n m : Nest V} {found : Bool} (reads : n.readRow selected i = .ok (found, m)) :
    m.self.tags = n.self.tags := (List.cons.inj (readRow_keeps selected i n _ reads).1).1

theorem readRow_first (selected : V → Bool) {n : Nest V} {rows : List (Row V)} (stands : n.Stands rows)
    (number : n.self.rowNumber = -1) (valid : n.self.tags.Valid) : ∃ r, n.readRow selected n.self.firstRow = .ok r ∧
      Reads selected n.self.tags 0 (rows.filter fun r => selected r.vars) n.self.firstRow r := by
  have first : n.self.firstRow = n.self.tags.firstRow := rfl
  obtain ⟨k, number_⟩ := Int.eq_ofNat_of_zero_le valid.first.1
  have row : n.self.firstRow = n.self.rowNumber + 1 + k := by omega
  rw [row]
  cases found : seek (fun r => selected r.vars) k rows with
  | none =>
      obtain ⟨m, reads, ends⟩ := readRow_none stands found
      refine ⟨_, reads, .none (Tags.pickedFrom_eq_nil fun i _ above => ?_) (.inl ends)⟩
      have length := seek_none found
      exact Tags.not_picks_before (by omega)
  | some r =>
      obtain ⟨cur, rest⟩ := r
      obtain ⟨m, reads, isAt, ahead, count, isRead⟩ := readRow_some stands found
      have drop := seek_some found
      have tags := tags_of_readRow reads
      have before := Tags.pickedFrom_skip (t := n.self.tags) (i := 0) (j := k)
        (rows.filter fun r => selected r.vars) fun i _ below => Tags.not_picks_before (by omega)
      have length := congrArg List.length drop
      rw [List.length_drop, List.length_cons] at length
      refine ⟨_, reads, .row (by omega) ⟨isAt, isRead, by omega, congrArg _ ahead, ?_⟩ ?_ (by omega) (Nat.zero_le k)⟩
      · rw [tags]
        exact ⟨by omega, by rw [number_]; simp⟩
      · rw [before, drop, Nat.zero_add]

/-- After a row with an `int` for its number, the next one is asked for by an `int` or by a
    negative number. -/
theorem readRow_next (selected : V → Bool) {n : Nest V} {rows : List (Row V)} {k : Nat} (stands : n.Stands rows)
    (number : n.self.rowNumber = k) (valid : n.self.tags.Valid) (reached : n.self.tags.Reached k)
    (fits : k + n.self.rowStride < 2 ^ 31) :
    ∃ r, n.readRow selected (i32 (k + n.self.rowStride)) = .ok r ∧
      Reads selected n.self.tags (k + 1) (rows.filter fun r => selected r.vars) (i32 (k + n.self.rowStride))
        r := by
  have stride : n.self.tags.rowStride = n.self.rowStride := rfl
  have small := valid.stride
  rw [i32_of_fits ⟨by omega, by omega⟩]
  by_cases still : n.self.rowStride = 0
  · refine ⟨(false, n), ?_, .none (Tags.pickedFrom_eq_nil fun m above _ => ?_) (.inr ⟨still, ?_⟩)⟩
    · rw [readRow, if_neg (by omega), if_pos (by omega)]
    · exact Tags.not_picks_stride still reached (by omega)
    · have := reached.1
      omega
  · obtain ⟨j, stride_⟩ := Int.eq_ofNat_of_zero_le (show 0 ≤ n.self.rowStride - 1 by omega)
    have row : k + n.self.rowStride = n.self.rowNumber + 1 + j := by omega
    rw [row]
    cases found : seek (fun r => selected r.vars) j rows with
    | none =>
        obtain ⟨m, reads, ends⟩ := readRow_none stands found
        refine ⟨_, reads, .none (Tags.pickedFrom_eq_nil fun i _ above => ?_) (.inl ends)⟩
        have length := seek_none found
        exact Tags.not_picks_between reached (by omega) (by omega)
    | some r =>
        obtain ⟨cur, rest⟩ := r
        obtain ⟨m, reads, isAt, ahead, count, isRead⟩ := readRow_some stands found
        have drop := seek_some found
        have tags := tags_of_readRow reads
        have between := Tags.pickedFrom_skip (t := n.self.tags) (i := k + 1) (j := j)
          (rows.filter fun r => selected r.vars) fun i above below =>
            Tags.not_picks_between reached (by omega) (by omega)
        have length := congrArg List.length drop
        rw [List.length_drop, List.length_cons] at length
        refine ⟨_, reads, .row (k := k + 1 + j) (by omega) ⟨isAt, isRead, by omega, congrArg _ ahead, ?_⟩ ?_ (by omega)
          (by omega)⟩
        · rw [tags]
          have next := reached.2
          refine ⟨by have := reached.1; omega, ?_⟩
          have sum := Int.dvd_add next (dvd_refl n.self.tags.rowStride)
          rwa [show (k : Int) - n.self.tags.firstRow + n.self.tags.rowStride =
            ((k + 1 + j : Nat) : Int) - n.self.tags.firstRow by omega] at sum
        · rw [between, drop]

/-- A number that is too large for an `int` is behind the row. -/
theorem readRow_overflow (selected : V → Bool) {n : Nest V} {k : Nat} (number : n.self.rowNumber = k)
    (int : k < 2 ^ 31) (valid : n.self.tags.Valid) (large : ¬(k + n.self.rowStride < 2 ^ 31)) :
    n.readRow selected (i32 (k + n.self.rowStride)) = .error .backingUp := by
  have stride : n.self.tags.rowStride = n.self.rowStride := rfl
  have small := valid.stride
  have negative : i32 (k + n.self.rowStride) < 0 := by
    simp only [i32]
    omega
  rw [readRow, if_pos (by omega)]

theorem length_below {m : Nest V} {t : Tags} {below : List Tags} (tags : m.tags = t :: below) :
    m.below.length = below.length := by
  rw [← (List.cons.inj tags).2, List.length_map]

/-- A walk that leaves the tags, and the row numbers of parents below reset. -/
def Keeps (n m : Nest V) : Prop :=
  m.tags = n.tags ∧ ((∀ s ∈ n.below, Idle false s) → ∀ s ∈ m.below, Idle false s)

theorem Keeps.trans {n m k : Nest V} (first : n.Keeps m) (second : m.Keeps k) : n.Keeps k :=
  ⟨second.1.trans first.1, fun idle => second.2 (first.2 idle)⟩

theorem keeps_setReadP (state : Bool) (n : Nest V) : n.Keeps (n.setReadP state) :=
  ⟨tags_setReadP state n, fun idle => idle_setReadP idle⟩

theorem keeps_readRow (selected : V → Bool) (i : Int) (n : Nest V) :
    Ensures (fun r => n.Keeps r.2) (n.readRow selected i) :=
  fun r reads => ⟨(readRow_keeps selected i n r reads).1, fun idle => readRow_idle selected i idle r reads⟩

theorem walkLeafRows_keeps (selected : V → Bool) (fuel : Nat) (status : Bool) (i : Int) (n : Nest V) :
    Ensures (fun w => n.Keeps w.nest) (walkLeafRows selected fuel status i n) := by
  induction fuel generalizing status i n with
  | zero => exact ensures_error
  | succ fuel ih =>
      unfold walkLeafRows
      split
      · refine (keeps_readRow selected _ (n.setReadP false)).bind fun r next => (ih r.1 _ r.2).bind fun w rest => ?_
        exact ensures_ok.mpr (((keeps_setReadP false n).trans next).trans rest)
      · exact ensures_ok.mpr ⟨rfl, id⟩

theorem walkChild_keeps {walk : Nest V → Except Failure (Walked V)} {self c : Sequence V} {below : List (Sequence V)}
    (inner : Ensures (fun w => w.nest.tags = (⟨c, below⟩ : Nest V).tags ∧
      ((∀ s ∈ below, Idle false s) → ∀ s ∈ w.nest.all, Idle false s)) (walk ⟨c, below⟩)) :
    Ensures (fun w => (⟨self, c :: below⟩ : Nest V).Keeps w.nest) (walkChild walk ⟨self, c :: below⟩) := by
  unfold walkChild
  dsimp only
  split
  · refine inner.bind fun w kept => ?_
    have keeps : (⟨self, c :: below⟩ : Nest V).Keeps ⟨self, w.nest.all⟩ :=
      ⟨congrArg (_ :: ·) kept.1, fun idle => kept.2 (List.forall_mem_cons.mp idle).2⟩
    split <;> exact ensures_ok.mpr keeps
  · exact ensures_error

theorem walkParentRows_keeps {walk : V → Nest V → Except Failure (Walked V)} {c : Tags} {below : List Tags}
    (inner : ∀ vars (m : Nest V), m.tags = c :: below → Ensures (fun w => w.nest.tags = m.tags ∧
      ((∀ s ∈ m.below, Idle false s) → ∀ s ∈ w.nest.all, Idle false s)) (walk vars m))
    (fuel : Nat) (status : Bool) (i : Int) (n : Nest V) (tags : n.tags = n.self.tags :: c :: below) :
    Ensures (fun w => n.Keeps w.nest) (walkParentRows walk fuel status i n) := by
  induction fuel generalizing status i n with
  | zero => exact ensures_error
  | succ fuel ih =>
      unfold walkParentRows
      split
      · obtain ⟨self, below'⟩ := n
        cases below' with
        | nil => cases (List.cons.inj tags).2
        | cons first others =>
            refine (walkChild_keeps (inner self.vars ⟨first, others⟩ (List.cons.inj tags).2)).bind fun row kept => ?_
            refine (keeps_readRow _ _ (row.nest.setReadP false)).bind fun r next => ?_
            have all := (kept.trans (keeps_setReadP false _)).trans next
            have tagsAfter : r.2.tags = r.2.self.tags :: c :: below := by
              have same := all.1.trans tags
              rw [(List.cons.inj same).1.symm] at same
              exact same
            exact (ih r.1 _ r.2 tagsAfter).bind fun w rest => ensures_ok.mpr (all.trans rest)
      · exact ensures_ok.mpr ⟨rfl, id⟩

/-- A walk leaves the row numbers of all parents reset. -/
theorem walk_keeps (selection : List V → Bool) (depth : Nat) (around : List V) (n : Nest V) (tagged : Tagged n.tags)
    (length : n.below.length = depth) : Ensures (fun w => w.nest.tags = n.tags ∧
      ((∀ s ∈ n.below, Idle false s) → ∀ s ∈ w.nest.all, Idle false s)) (walk selection depth around n) := by
  induction depth generalizing around n with
  | zero =>
      have below := List.length_eq_zero_iff.mp length
      have leaf : n.tags = [n.self.tags] := by rw [tags, all, below]; rfl
      rw [leaf] at tagged
      have isLeaf : n.self.leafSequence = true := tagged.1
      rw [walk, if_pos isLeaf, walkLeaf]
      refine (keeps_readRow _ _ n).bind fun r next => (walkLeafRows_keeps _ _ _ _ r.2).mono fun w rest => ?_
      have tags' := (next.trans rest).1
      refine ⟨tags', fun _ s mem notLeaf => ?_⟩
      have leaf' : s.tags ∈ [n.self.tags] := by
        rw [← leaf, ← tags']
        exact List.mem_map_of_mem mem
      have sameLeaf : s.leafSequence = true := by
        rw [List.mem_singleton] at leaf'
        exact (congrArg Tags.leafSequence leaf').trans isLeaf
      rw [sameLeaf] at notLeaf
      simp at notLeaf
  | succ depth ih =>
      obtain ⟨self, below⟩ := n
      cases below with
      | nil => cases length
      | cons c below =>
          have parent : self.leafSequence = false := tagged.1
          rw [walk, if_neg (by simp [parent]), walkParent]
          refine (keeps_readRow _ _ _).bind fun r next => ?_
          have tagsAfter : r.2.tags = r.2.self.tags :: c.tags :: below.map Sequence.tags := by
            have same := next.1
            rw [(List.cons.inj same).1]
            exact same
          refine (walkParentRows_keeps ?_ _ r.1 _ r.2
            tagsAfter).bind fun w rest => ensures_ok.mpr ⟨(next.trans rest).1, fun idle => ?_⟩
          · intro vars m tags
            have length' : m.below.length = depth := by
              have both := congrArg List.length tags
              simp [Nest.tags, all] at both length
              omega
            exact ih (vars :: around) m (tags ▸ tagged.2.2) length'
          · exact List.forall_mem_cons.mpr ⟨fun _ => rfl, (next.trans rest).2 idle⟩

/-! ## The walk fails only by backing up -/

theorem isEndOfRows_iff {s : Sequence V} {k : Nat} :
    s.isEndOfRows k = true ↔ s.tags.endingRowNumber ≠ -1 ∧ s.tags.endingRowNumber < k := by
  have last : s.tags.endingRowNumber = s.endingRowNumber := rfl
  unfold Sequence.isEndOfRows
  rw [last]
  split
  · simp [*]
  · simp [*]

theorem AtRow.picks {k : Nat} {row : Row V} {rest : List (Row V)} {n : Nest V}
    (atRow : n.AtRow selected k row rest) (more : n.self.isEndOfRows k = false) : n.self.tags.Picks k := by
  refine ⟨atRow.reached, ?_⟩
  by_contra ends
  rw [not_or, not_le] at ends
  rw [isEndOfRows_iff.mpr ends] at more
  cases more

theorem walkLeafRows_raises (selected : V → Bool) (fuel : Nat) (status : Bool) (i : Int) (n : Nest V)
    (enough : 0 < fuel ∧ (status = true → n.self.ahead.length + 1 < fuel)) :
    Raises (· = .backingUp) (walkLeafRows selected fuel status i n) := by
  induction fuel generalizing status i n with
  | zero => exact absurd enough.1 (Nat.lt_irrefl 0)
  | succ fuel ih =>
      unfold walkLeafRows
      split
      · rename_i more
        rw [Bool.and_eq_true] at more
        have room := enough.2 more.1
        refine (readRow_raises selected _ _).bind fun r reads => (ih r.1 _ r.2 ⟨by omega, fun found => ?_⟩).bind
          fun w _ => raises_ok _
        have fewer := readRow_ahead selected _ n r reads found
        omega
      · exact raises_ok _

theorem walkLeaf_raises (selected : V → Bool) (n : Nest V) : Raises (· = .backingUp) (walkLeaf selected n) :=
  (readRow_raises selected _ n).bind fun _ _ => walkLeafRows_raises selected _ _ _ _ ⟨by omega, fun _ => by omega⟩

/-- The child of a row stands at its first row, with its row number reset if it is a parent. -/
structure Entered (leafToo : Bool) (child : List (Row V)) (m : Nest V) : Prop where
  isRead : m.AllReadP true
  positioned : Positioned child m.all
  idle : ∀ s ∈ m.all, Idle leafToo s

theorem Entered.stands {leafToo : Bool} {child : List (Row V)} {m : Nest V} (entered : m.Entered leafToo child)
    (some_ : child ≠ []) : m.Stands child := by
  obtain ⟨row, ahead, rfl⟩ := List.exists_cons_of_ne_nil some_
  obtain ⟨-, rfl, vars, unsent, below⟩ := entered.positioned
  exact .inr ⟨entered.isRead, row, rfl, vars, unsent, below⟩

/-- The nest of a child, at a row of its parent. -/
theorem AtRow.entered {leafToo : Bool} {k : Nat} {row : Row V} {rest : List (Row V)} {self c : Sequence V}
    {below : List (Sequence V)} (atRow : (⟨self, c :: below⟩ : Nest V).AtRow selected k row rest)
    (idle : ∀ s ∈ c :: below, Idle leafToo s) : (⟨c, below⟩ : Nest V).Entered leafToo row.child :=
  ⟨(List.forall_mem_cons.mp atRow.isRead).2, atRow.isAt.below, idle⟩

/-- After the row of a number has been sent or not, the others are ahead. -/
structure Resumes (self : Sequence V) (k : Nat) (below : List Tags) (m : Nest V) : Prop where
  ahead : m.self.ahead = self.ahead
  number : m.self.rowNumber = k
  tags : m.tags = self.tags :: below

theorem Resumes.next (selected : V → Bool) {self : Sequence V} {k : Nat} {below : List Tags} {m : Nest V}
    (resumes : m.Resumes self k below) (valid : self.tags.Valid) (reached : self.tags.Reached k) (fits : k + self.rowStride < 2 ^ 31) :
    ∃ q, (m.setReadP false).readRow selected (i32 (k + self.rowStride)) = .ok q ∧
      Reads selected self.tags (k + 1) (self.ahead.filter fun r => selected r.vars) (i32 (k + self.rowStride)) q ∧
      q.2.tags = self.tags :: below ∧ (q.1 = true → q.2.self.ahead.length < self.ahead.length) ∧
      ∀ leafToo, (∀ s ∈ m.below, Idle leafToo s) → ∀ s ∈ q.2.below, Idle leafToo s := by
  obtain ⟨ahead, number, tags⟩ := resumes
  have sameTags : (m.setReadP false).self.tags = self.tags := (List.cons.inj tags).1
  have stride : (m.setReadP false).self.rowStride = self.rowStride := congrArg Tags.rowStride sameTags
  have next := readRow_next selected (stands_setReadP (n := m)) number (sameTags ▸ valid)
    (sameTags ▸ reached) (by rw [stride]; exact fits)
  rw [stride, ahead, sameTags] at next
  obtain ⟨q, reads, found⟩ := next
  refine ⟨q, reads, found, ?_, fun more => ?_, fun leafToo idle => ?_⟩
  · rw [(readRow_keeps _ _ _ q reads).1, tags_setReadP, tags]
  · rw [← ahead]
    exact readRow_ahead _ _ m q reads more
  · exact readRow_idle _ _ (idle_setReadP idle) q reads

theorem Resumes.overflow (selected : V → Bool) {self : Sequence V} {k : Nat} {below : List Tags} {m : Nest V}
    (resumes : m.Resumes self k below) (valid : self.tags.Valid) (int : k < 2 ^ 31)
    (large : ¬k + self.rowStride < 2 ^ 31) :
    (m.setReadP false).readRow selected (i32 (k + self.rowStride)) = .error .backingUp := by
  obtain ⟨-, number, tags⟩ := resumes
  have sameTags : (m.setReadP false).self.tags = self.tags := (List.cons.inj tags).1
  have stride : (m.setReadP false).self.rowStride = self.rowStride := congrArg Tags.rowStride sameTags
  have past := readRow_overflow selected (n := m.setReadP false) number int (sameTags ▸ valid)
    (by rw [stride]; exact large)
  rwa [stride] at past

/-- The parent goes on when its child has been walked through. -/
theorem walkChild_ok {walk : Nest V → Except Failure (Walked V)} {self c : Sequence V} {below : List (Sequence V)}
    {w : Walked V} (unsent : self.unsentData = true) (walked : walk ⟨c, below⟩ = .ok w)
    (tags : w.nest.tags = (⟨c, below⟩ : Nest V).tags) {k : Nat} (number : self.rowNumber = k) :
    ∃ m, walkChild walk ⟨self, c :: below⟩ = .ok ⟨m, if w.rows.isEmpty then [] else [.mk self.vars w.rows]⟩ ∧
      m.Resumes self k (⟨c, below⟩ : Nest V).tags ∧ m.below = w.nest.all := by
  simp only [walkChild, unsent, if_true, walked, ok_bind]
  cases w.rows.isEmpty with
  | true => exact ⟨⟨self, w.nest.all⟩, rfl, ⟨rfl, number, congrArg (_ :: ·) tags⟩, rfl⟩
  | false =>
      exact ⟨⟨{ self with unsentData := false }, w.nest.all⟩, rfl, ⟨rfl, number, congrArg (_ :: ·) tags⟩, rfl⟩

theorem walkChild_error {walk : Nest V → Except Failure (Walked V)} {self c : Sequence V}
    {below : List (Sequence V)} {e : Failure} (unsent : self.unsentData = true) (walked : walk ⟨c, below⟩ = .error e) :
    walkChild walk ⟨self, c :: below⟩ = .error e := by
  simp only [walkChild, unsent, if_true, walked]
  rfl

/-- Each instance below the rows that are asked for has a row, but those of the leaf unless
    they are to have one too. -/
def Furnished (leafToo : Bool) : List Tags → List (Row V) → Prop
  | [], _ => True
  | [_], _ => True
  | t :: c :: below, rows => ∀ row ∈ t.picked rows,
      (below ≠ [] ∨ leafToo = true → row.child ≠ []) ∧ Furnished leafToo (c :: below) row.child

theorem walkParentRows_raises {walk : V → Nest V → Except Failure (Walked V)} {c : Tags} {below : List Tags}
    (good : List (Row V) → Prop)
    (inner : ∀ vars (m : Nest V) child, m.tags = c :: below → m.Entered false child → good child →
      Raises (· = .backingUp) (walk vars m))
    (keeps : ∀ vars (m : Nest V), m.tags = c :: below → Ensures (fun w => w.nest.tags = m.tags ∧
      ((∀ s ∈ m.below, Idle false s) → ∀ s ∈ w.nest.all, Idle false s)) (walk vars m))
    (fuel : Nat) (status : Bool) (i : Int) (n : Nest V) (tags : n.tags = n.self.tags :: c :: below)
    (valid : n.self.tags.Valid) (idle : ∀ s ∈ n.below, Idle false s)
    (enough : 0 < fuel ∧ (status = true → n.self.ahead.length + 1 < fuel))
    (at_ : status = true → ∃ (k : Nat) (row : Row V), i = k ∧ FitsI32 i ∧
      n.AtRow (fun _ => true) k row n.self.ahead ∧ ∀ r ∈ n.self.tags.pickedFrom k (row :: n.self.ahead), good r.child) :
    Raises (· = .backingUp) (walkParentRows walk fuel status i n) := by
  induction fuel generalizing status i n with
  | zero => exact absurd enough.1 (Nat.lt_irrefl 0)
  | succ fuel ih =>
      unfold walkParentRows
      split
      swap
      · exact raises_ok _
      rename_i more
      rw [Bool.and_eq_true, Bool.not_eq_true'] at more
      obtain ⟨k, row, rfl, fits, atRow, goods⟩ := at_ more.1
      have room := enough.2 more.1
      have picks := atRow.picks more.2
      rw [Tags.pickedFrom, if_pos picks, List.forall_mem_cons] at goods
      obtain ⟨self, below'⟩ := n
      cases below' with
      | nil => cases (List.cons.inj tags).2
      | cons first others =>
          have tags' : (⟨first, others⟩ : Nest V).tags = c :: below := (List.cons.inj tags).2
          have entered := atRow.entered idle
          have child := inner self.vars ⟨first, others⟩ row.child tags' entered goods.1
          cases walked : walk self.vars ⟨first, others⟩ with
          | error e =>
              rw [walkChild_error atRow.isAt.unsent walked]
              exact raises_error.mpr (child e walked)
          | ok w =>
              obtain ⟨tagsBelow, idleBelow⟩ := keeps self.vars ⟨first, others⟩ tags' w walked
              obtain ⟨m, row', resumes, below_⟩ :=
                walkChild_ok atRow.isAt.unsent walked tagsBelow atRow.number
              have idle' : ∀ s ∈ m.below, Idle false s := by
                rw [below_]
                exact idleBelow (List.forall_mem_cons.mp idle).2
              rw [tags'] at resumes
              rw [row', ok_bind]
              by_cases small : k + self.rowStride < 2 ^ 31
              · obtain ⟨q, reads, found, tagsAfter, fewer, idleAfter⟩ :=
                  resumes.next (fun _ => true) valid atRow.reached small
                have sameTags : q.2.self.tags = self.tags := (List.cons.inj tagsAfter).1
                dsimp only
                rw [reads, ok_bind]
                refine Raises.bind (ih q.1 _ q.2 (by rw [sameTags]; exact tagsAfter) (sameTags ▸ valid)
                  (idleAfter false idle') ⟨by omega, fun more => ?_⟩ fun more => ?_) fun _ _ => raises_ok _
                · have := fewer more
                  have : self.ahead.length + 1 < fuel + 1 := room
                  omega
                · cases found with
                  | none _ _ => cases more
                  | row index atRow' picked count above =>
                      have rest := atRow'.ahead
                      rw [filter_all] at picked rest
                      subst rest
                      refine ⟨_, _, index, i32_fits _, atRow', ?_⟩
                      rw [sameTags, ← picked]
                      exact goods.2
              · have past := resumes.overflow (fun _ => true) valid (by have := fits.2; omega) small
                dsimp only
                rw [past]
                exact raises_error.mpr rfl

/-- When every instance of a parent that is come to has a row, the walk fails only by backing
    up: there is fuel, and each row of a parent has been read. -/
theorem walk_raises (selection : List V → Bool) (depth : Nat) (around : List V) (n : Nest V) (rows : List (Row V))
    (tagged : Tagged n.tags) (length : n.below.length = depth) (valid : ∀ t ∈ n.tags, t.Valid)
    (stands : depth ≠ 0 → n.Stands rows) (idle : ∀ s ∈ n.all, Idle false s) (furnished : Furnished false n.tags rows) :
    Raises (· = .backingUp) (walk selection depth around n) := by
  induction depth generalizing around n rows with
  | zero =>
      have below := List.length_eq_zero_iff.mp length
      have leaf : n.tags = [n.self.tags] := by rw [tags, all, below]; rfl
      rw [leaf] at tagged
      rw [walk, if_pos (show n.self.leafSequence = true from tagged.1)]
      exact walkLeaf_raises _ n
  | succ depth ih =>
      obtain ⟨self, below⟩ := n
      cases below with
      | nil => cases length
      | cons c below =>
          have parent : self.leafSequence = false := tagged.1
          rw [all, List.forall_mem_cons] at idle
          rw [walk, if_neg (by simp [parent]), walkParent]
          obtain ⟨q, reads, found⟩ := readRow_first (fun _ => true) (stands (Nat.succ_ne_zero _))
            (idle.1 (.inl parent)) (valid _ List.mem_cons_self)
          have same := (readRow_keeps _ _ _ q reads).1
          have sameTags : q.2.self.tags = self.tags := (List.cons.inj same).1
          rw [reads, ok_bind]
          refine Raises.bind (walkParentRows_raises
            (fun child => (below.map Sequence.tags ≠ [] ∨ false = true → child ≠ []) ∧
              Furnished false (c.tags :: below.map Sequence.tags) child) ?_ ?_ _ q.1 _ q.2
            (by rw [sameTags]; exact same) (sameTags ▸ valid _ List.mem_cons_self)
            (readRow_idle _ _ idle.2 q reads) ⟨by omega, fun _ => by omega⟩ fun more => ?_) fun _ _ => raises_ok _
          · intro vars m child tags entered good
            have length' : m.below.length = depth := by
              rw [length_below tags, List.length_map]
              exact Nat.succ.inj length
            refine ih (vars :: around) m child (tags ▸ tagged.2.2) length' ?_ (fun some_ => ?_) entered.idle
              (tags ▸ good.2)
            · rw [tags]
              exact (List.forall_mem_cons.mp valid).2
            · refine entered.stands (good.1 (.inl fun none => some_ ?_))
              rw [← length', length_below tags, none]
              rfl
          · intro vars m tags
            have length' : m.below.length = depth := by
              rw [length_below tags, List.length_map]
              exact Nat.succ.inj length
            exact walk_keeps selection depth (vars :: around) m (tags ▸ tagged.2.2) length'
          · cases found with
            | none _ _ => cases more
            | row number atRow picked _ _ =>
                have rest := atRow.ahead
                rw [filter_all] at picked rest
                subst rest
                refine ⟨_, _, number, ⟨?_, ?_⟩, atRow, ?_⟩
                · exact le_trans (by norm_num) (valid _ List.mem_cons_self).first.1
                · exact (valid _ List.mem_cons_self).first.2
                · rw [sameTags]
                  intro r mem
                  exact furnished r (by rw [Tags.picked]; exact picked ▸ mem)

end Nest

/-! ## What the walk gives -/

/-- A row with some rows of its child. -/
def withChild (vars : V) : List (BaseTypeRow V) → Option (BaseTypeRow V)
  | [] => none
  | child => some (.mk vars child)

/-- The rows of a table that a request is for: of a leaf the selected ones with the numbers that
    are asked for, and of a parent those with such numbers that have some below. -/
def chosen (selection : List V → Bool) : List Tags → List V → List (Row V) → List (BaseTypeRow V)
  | [], _, _ => []
  | [t], around, rows =>
      (t.picked (rows.filter fun r => selection (r.vars :: around))).map fun r => .mk r.vars []
  | t :: c :: below, around, rows =>
      (t.picked rows).filterMap fun r => withChild r.vars (chosen selection (c :: below) (r.vars :: around) r.child)

/-- Something holds of each element, and of the last one for whatever comes after. -/
def EachThen {α : Type} (P : Bool → α → Prop) (last : Bool) : List α → Prop
  | [] => True
  | [a] => P last a
  | a :: b :: as => P false a ∧ EachThen P last (b :: as)

theorem EachThen.cons {α : Type} {P : Bool → α → Prop} {last : Bool} {a : α} {as : List α}
    (h : EachThen P last (a :: as)) :
    ∃ then_, P then_ a ∧ EachThen P last as ∧ (last = false ∨ as ≠ [] → then_ = false) := by
  cases as with
  | nil => exact ⟨last, h, trivial, fun more => more.resolve_right (fun some_ => some_ rfl)⟩
  | cons b as => exact ⟨false, h.1, h.2, fun _ => rfl⟩

/-- The numbers after the rows are `int`s, each instance that is come to has a row, and each
    instance of the leaf is read to its end, unless it is the last one. -/
def Proper (selection : List V → Bool) : Bool → List Tags → List V → List (Row V) → Prop
  | _, [], _, _ => True
  | last, [t], around, rows =>
      t.Counts (rows.filter fun r => selection (r.vars :: around)).length ∧
        (last = false → ¬t.Cut (rows.filter fun r => selection (r.vars :: around)).length)
  | last, t :: c :: below, around, rows =>
      t.Counts rows.length ∧ EachThen (fun last r =>
        r.child ≠ [] ∧ Proper selection last (c :: below) (r.vars :: around) r.child) last (t.picked rows)

instance EachThen.decidable {α : Type} {P : Bool → α → Prop} [∀ last a, Decidable (P last a)] (last : Bool) :
    (as : List α) → Decidable (EachThen P last as)
  | [] => isTrue trivial
  | [a] => inferInstanceAs (Decidable (P last a))
  | a :: b :: as =>
      have := EachThen.decidable last (P := P) (b :: as)
      inferInstanceAs (Decidable (P false a ∧ EachThen P last (b :: as)))

instance Proper.decidable (selection : List V → Bool) : (last : Bool) → (tags : List Tags) → (around : List V) →
    (rows : List (Row V)) → Decidable (Proper selection last tags around rows)
  | _, [], _, _ => isTrue trivial
  | _, [_], _, _ => inferInstanceAs (Decidable (_ ∧ (_ → _)))
  | last, t :: c :: below, around, rows =>
      have (last : Bool) (r : Row V) : Decidable (r.child ≠ [] ∧
          Proper selection last (c :: below) (r.vars :: around) r.child) :=
        have := Proper.decidable selection last (c :: below) (r.vars :: around) r.child
        have : Decidable (r.child ≠ []) := decidable_of_iff (r.child.isEmpty = false) (by simp)
        inferInstance
      inferInstanceAs (Decidable (t.Counts rows.length ∧ EachThen _ last (t.picked rows)))

namespace Nest

variable {selected : V → Bool}

theorem walkLeafRows_eq {fuel k : Nat} {row : Row V} {rest : List (Row V)} {n : Nest V}
    (atRow : n.AtRow selected k row rest) (tags : n.tags = [n.self.tags]) (valid : n.self.tags.Valid)
    (enough : n.self.ahead.length + 1 < fuel) (counts : n.self.tags.Counts (k + 1 + rest.length)) :
    ∃ w, walkLeafRows selected fuel true k n = .ok w ∧
      w.rows = (n.self.tags.pickedFrom k (row :: rest)).map (fun r => .mk r.vars []) ∧
      (¬n.self.tags.Cut (k + 1 + rest.length) → w.nest.self.rowNumber = -1) := by
  induction fuel generalizing k row rest n with
  | zero => omega
  | succ fuel ih =>
      unfold walkLeafRows
      cases ends : n.self.isEndOfRows k with
      | true =>
          rw [isEndOfRows_iff] at ends
          refine ⟨⟨n, []⟩, rfl, ?_, fun uncut => absurd (.inl ⟨k, by omega, atRow.reached, ends⟩) uncut⟩
          rw [Tags.pickedFrom_eq_nil fun m above _ => Tags.not_picks_end ends above]
          rfl
      | false =>
          have picks := atRow.picks ends
          have resumes : n.Resumes n.self k [] := ⟨rfl, atRow.number, tags⟩
          obtain ⟨q, reads, found, tagsAfter, fewer, -⟩ :=
            resumes.next selected valid atRow.reached (counts k (by omega) picks)
          rw [atRow.ahead] at found
          have sameTags : q.2.self.tags = n.self.tags := (List.cons.inj tagsAfter).1
          simp only [Bool.not_false, Bool.and_self, if_true, reads, ok_bind]
          rw [Tags.pickedFrom, if_pos picks]
          cases found with
          | none none_ ends' =>
              obtain ⟨fuel, rfl⟩ := Nat.exists_eq_succ_of_ne_zero (show fuel ≠ 0 by omega)
              rename_i m
              refine ⟨⟨m, [.mk n.self.vars []]⟩, rfl, ?_, fun uncut => ?_⟩
              · rw [none_, atRow.isAt.vars]
                rfl
              · obtain reset | ⟨still, before⟩ := ends'
                · exact reset
                · exact absurd (.inr ⟨still, by omega⟩) uncut
          | row index atRow' picked count above =>
              rename_i m k' row' rest'
              have less : m.self.ahead.length < n.self.ahead.length := fewer rfl
              rw [← sameTags, count] at counts
              obtain ⟨w, walks, rows, reset⟩ := ih atRow' (by rw [sameTags]; exact tagsAfter) (sameTags ▸ valid)
                (by omega) counts
              rw [index]
              refine ⟨{ w with rows := .mk n.self.vars [] :: w.rows }, by rw [walks, ok_bind]; rfl, ?_,
                fun uncut => reset (by rwa [sameTags, ← count])⟩
              rw [picked, List.map_cons, ← sameTags, ← rows, atRow.isAt.vars]

theorem walkLeaf_eq (selected : V → Bool) {n : Nest V} {rows : List (Row V)} (stands : n.Stands rows)
    (reset : n.self.rowNumber = -1) (tags : n.tags = [n.self.tags]) (valid : n.self.tags.Valid)
    (counts : n.self.tags.Counts (rows.filter fun r => selected r.vars).length) :
    ∃ w, walkLeaf selected n = .ok w ∧
      w.rows = (n.self.tags.picked (rows.filter fun r => selected r.vars)).map (fun r => .mk r.vars []) ∧
      (¬n.self.tags.Cut (rows.filter fun r => selected r.vars).length → w.nest.self.rowNumber = -1) := by
  unfold walkLeaf
  obtain ⟨q, reads, found⟩ := readRow_first selected stands reset valid
  have same := (readRow_keeps _ _ _ q reads).1
  have sameTags : q.2.self.tags = n.self.tags := (List.cons.inj same).1
  simp only [reads, ok_bind]
  cases found with
  | none none_ ends =>
      rename_i m
      refine ⟨⟨m, []⟩, rfl, ?_, fun _ => ?_⟩
      · rw [Tags.picked, none_]
        rfl
      · obtain reset' | ⟨-, before⟩ := ends
        · exact reset'
        · have := valid.first.1
          omega
  | row index atRow picked count above =>
      rename_i m k row rest
      rw [Nat.zero_add] at count
      rw [index]
      obtain ⟨w, walks, rows', reset'⟩ := walkLeafRows_eq atRow (by rw [sameTags, same, tags]) (sameTags ▸ valid)
        (Nat.lt_succ_self _) (by rw [sameTags, ← count]; exact counts)
      refine ⟨w, walks, ?_, fun uncut => reset' (by rwa [sameTags, ← count])⟩
      rw [rows', sameTags, Tags.picked, picked]

theorem withChild_eq (vars : V) (rows : List (BaseTypeRow V)) :
    (withChild vars rows).toList = if rows.isEmpty then [] else [.mk vars rows] := by
  cases rows <;> rfl

theorem walkParentRows_eq (walk : V → Nest V → Except Failure (Walked V)) {c : Tags} {below : List Tags}
    {good : Bool → Row V → Prop} (rowsOf : Row V → List (BaseTypeRow V))
    (inner : ∀ last row (m : Nest V), m.tags = c :: below → m.Entered true row.child → good last row →
      ∃ w, walk row.vars m = .ok w ∧ w.rows = rowsOf row ∧ w.nest.tags = m.tags ∧
        (last = false → ∀ s ∈ w.nest.all, Idle true s))
    {fuel k : Nat} {row : Row V} {n : Nest V} (atRow : n.AtRow (fun _ => true) k row n.self.ahead)
    (tags : n.tags = n.self.tags :: c :: below) (valid : n.self.tags.Valid)
    (enough : n.self.ahead.length + 1 < fuel)
    (counts : n.self.tags.Counts (k + 1 + n.self.ahead.length)) (last : Bool)
    (goods : EachThen good last (n.self.tags.pickedFrom k (row :: n.self.ahead)))
    (idle : last = false ∨ n.self.tags.pickedFrom k (row :: n.self.ahead) ≠ [] → ∀ s ∈ n.below, Idle true s) :
    ∃ w, walkParentRows walk fuel true k n = .ok w ∧
      w.rows = (n.self.tags.pickedFrom k (row :: n.self.ahead)).filterMap (fun r => withChild r.vars (rowsOf r)) ∧
      w.nest.tags = n.tags ∧ (last = false → ∀ s ∈ w.nest.below, Idle true s) := by
  induction fuel generalizing k row n with
  | zero => omega
  | succ fuel ih =>
      unfold walkParentRows
      cases ends : n.self.isEndOfRows k with
      | true =>
          rw [isEndOfRows_iff] at ends
          refine ⟨⟨n, []⟩, rfl, ?_, rfl, fun more => idle (.inl more)⟩
          rw [Tags.pickedFrom_eq_nil fun m above _ => Tags.not_picks_end ends above]
          rfl
      | false =>
          have picks := atRow.picks ends
          rw [Tags.pickedFrom, if_pos picks] at goods idle ⊢
          have idle' := idle (.inr (List.cons_ne_nil _ _))
          obtain ⟨self, below'⟩ := n
          cases below' with
          | nil => cases (List.cons.inj tags).2
          | cons first others =>
              have tags' : (⟨first, others⟩ : Nest V).tags = c :: below := (List.cons.inj tags).2
              have vars : self.vars = row.vars := atRow.isAt.vars
              obtain ⟨then_, good', goods', stays⟩ := goods.cons
              obtain ⟨w, walked, rows, tagsBelow, idleBelow⟩ := inner then_ row _ tags' (atRow.entered idle') good'
              obtain ⟨m, child, resumes, below_⟩ := walkChild_ok atRow.isAt.unsent
                (vars ▸ walked) tagsBelow atRow.number
              rw [tags'] at resumes
              obtain ⟨q, reads, found, tagsAfter, fewer, idleAfter⟩ := resumes.next (fun _ => true) valid
                atRow.reached (counts k (by omega) picks)
              rw [filter_all] at found
              have sameTags : q.2.self.tags = self.tags := (List.cons.inj tagsAfter).1
              have idleNext : (last = false ∨ self.tags.pickedFrom (k + 1) self.ahead ≠ []) →
                  ∀ s ∈ q.2.below, Idle true s := fun more =>
                idleAfter true (below_ ▸ idleBelow (stays more))
              simp only [Bool.not_false, Bool.and_self, if_true, child, ok_bind, reads]
              rw [← withChild_eq, rows, vars, List.filterMap_cons]
              cases found with
              | none none_ ends' =>
                  obtain ⟨fuel, rfl⟩ := Nat.exists_eq_succ_of_ne_zero (show fuel ≠ 0 by omega)
                  rename_i m'
                  refine ⟨⟨m', (withChild row.vars (rowsOf row)).toList ++ []⟩, rfl, ?_, tagsAfter.trans tags.symm,
                    fun more => idleNext (.inl more)⟩
                  rw [none_]
                  cases withChild row.vars (rowsOf row) <;> rfl
              | row index atRow' picked count above =>
                  rename_i m' k' row' rest
                  obtain rfl : m'.self.ahead = rest := by
                    have rest_ := atRow'.ahead
                    rwa [filter_all] at rest_
                  have less : m'.self.ahead.length < self.ahead.length := fewer rfl
                  have same : m'.self.tags = self.tags := sameTags
                  rw [picked, ← same] at goods' idleNext
                  obtain ⟨w', walks, rows', tags'', idle''⟩ := ih atRow' (by rw [same]; exact tagsAfter)
                    (same ▸ valid) (by dsimp only at enough; omega) (by rw [same, ← count]; exact counts)
                    goods' idleNext
                  rw [index]
                  refine ⟨⟨w'.nest, (withChild row.vars (rowsOf row)).toList ++ w'.rows⟩, by rw [walks, ok_bind]; rfl,
                    ?_, tags''.trans (tagsAfter.trans tags.symm), idle''⟩
                  rw [rows', picked, same]
                  cases withChild row.vars (rowsOf row) <;> rfl

/-- The walk gives the rows that a request is for. -/
theorem walk_eq (selection : List V → Bool) (depth : Nat) (last : Bool) (around : List V) (n : Nest V)
    (rows : List (Row V)) (tagged : Tagged n.tags) (length : n.below.length = depth) (valid : ∀ t ∈ n.tags, t.Valid)
    (stands : n.Stands rows) (idle : ∀ s ∈ n.all, Idle true s) (proper : Proper selection last n.tags around rows) :
    ∃ w, walk selection depth around n = .ok w ∧ w.rows = chosen selection n.tags around rows ∧
      w.nest.tags = n.tags ∧ (last = false → ∀ s ∈ w.nest.all, Idle true s) := by
  induction depth generalizing last around n rows with
  | zero =>
      have below := List.length_eq_zero_iff.mp length
      have leaf : n.tags = [n.self.tags] := by rw [tags, all, below]; rfl
      have keeps := walk_keeps selection 0 around n tagged length
      rw [leaf] at tagged proper
      rw [walk, if_pos (show n.self.leafSequence = true from tagged.1)] at keeps ⊢
      have reset : n.self.rowNumber = -1 := idle n.self List.mem_cons_self (.inr rfl)
      obtain ⟨w, walks, rows', reset'⟩ := walkLeaf_eq (fun vars => selection (vars :: around)) stands
        reset leaf (valid _ (by rw [leaf]; exact List.mem_cons_self)) proper.1
      have tags' := (keeps w walks).1
      refine ⟨w, walks, by rw [leaf]; exact rows', tags', fun more s mem _ => ?_⟩
      have alone : w.nest.below = [] := by
        rw [leaf] at tags'
        exact List.length_eq_zero_iff.mp (length_below tags')
      rw [all, alone, List.mem_singleton] at mem
      rw [mem]
      exact reset' (proper.2 more)
  | succ depth ih =>
      obtain ⟨self, below⟩ := n
      cases below with
      | nil => cases length
      | cons c below =>
          have parent : self.leafSequence = false := tagged.1
          rw [all, List.forall_mem_cons] at idle
          rw [walk, if_neg (by simp [parent]), walkParent]
          obtain ⟨q, reads, found⟩ := readRow_first (fun _ => true) stands (idle.1 (.inl parent))
            (valid _ List.mem_cons_self)
          have same := (readRow_keeps _ _ _ q reads).1
          have sameTags : q.2.self.tags = self.tags := (List.cons.inj same).1
          have idle' := readRow_idle _ _ idle.2 q reads
          have inner : ∀ last (row : Row V) (m : Nest V), m.tags = c.tags :: below.map Sequence.tags →
              m.Entered true row.child →
              (row.child ≠ [] ∧ Proper selection last (c.tags :: below.map Sequence.tags) (row.vars :: around) row.child) →
              ∃ w, walk selection depth (row.vars :: around) m = .ok w ∧
                w.rows = chosen selection (c.tags :: below.map Sequence.tags) (row.vars :: around) row.child ∧
                w.nest.tags = m.tags ∧ (last = false → ∀ s ∈ w.nest.all, Idle true s) := by
            intro last row m tags entered good
            have length' : m.below.length = depth := by
              rw [length_below tags, List.length_map]
              exact Nat.succ.inj length
            have found := ih last (row.vars :: around) m row.child (tags ▸ tagged.2.2) length'
              (by rw [tags]; exact (List.forall_mem_cons.mp valid).2) (entered.stands good.1) entered.idle
              (tags ▸ good.2)
            rwa [tags] at found ⊢
          obtain ⟨counts, goods⟩ := proper
          simp only [reads, ok_bind]
          cases found with
          | none none_ ends =>
              rename_i m
              rw [filter_all] at none_
              refine ⟨⟨m.setRowNumber (-1), []⟩, rfl, ?_, same, fun _ => ?_⟩
              · show [] = (self.tags.picked rows).filterMap _
                rw [Tags.picked]
                exact (congrArg (List.filterMap _) none_).symm
              · exact List.forall_mem_cons.mpr ⟨fun _ => rfl, idle'⟩
          | row number atRow picked count above =>
              rename_i m k row rest
              obtain rfl : m.self.ahead = rest := by
                have rest_ := atRow.ahead
                rwa [filter_all] at rest_
              have same' : m.self.tags = self.tags := sameTags
              have picked' : self.tags.picked rows = m.self.tags.pickedFrom k (row :: m.self.ahead) := by
                rw [same', Tags.picked]
                rwa [filter_all] at picked
              rw [filter_all, Nat.zero_add] at count
              obtain ⟨w, walks, rows', tags', idle''⟩ := walkParentRows_eq
                (fun vars => walk selection depth (vars :: around))
                (fun r => chosen selection (c.tags :: below.map Sequence.tags) (r.vars :: around) r.child)
                inner atRow (by rw [same']; exact same)
                (same' ▸ valid _ List.mem_cons_self) (Nat.lt_succ_self _) (by rw [same', ← count]; exact counts) last
                (picked' ▸ goods) fun _ => idle'
              rw [number]
              refine ⟨{ w with nest := w.nest.setRowNumber (-1) }, by rw [walks]; rfl, ?_, tags'.trans same,
                fun more => ?_⟩
              · rw [rows', ← picked']
                rfl
              · exact List.forall_mem_cons.mpr ⟨fun _ => rfl, idle'' more⟩

end Nest

end Libdap.Dap2
