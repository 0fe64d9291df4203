import Libdap.Dap2.Sequence
import Libdap.Foundation.Lockstep

/-! # The rows of nested Sequences that have data to send

Sending and interning read a table in the same way. What they read is walked through here
without anything being written: the result is the rows whose leaf has rows to send. Sending
goes in step with the walk and writes the rows that it gives.
-/

namespace Libdap.Dap2

open Ints

variable {V : Type}

/-! ## What reading leaves as it is -/

/-- What says how a Sequence is read. -/
structure Tags where
  startingRowNumber : Int
  rowStride : Int
  endingRowNumber : Int
  leafSequence : Bool
  topMost : Bool
  deriving DecidableEq

namespace Sequence

def tags (s : Sequence V) : Tags :=
  ⟨s.startingRowNumber, s.rowStride, s.endingRowNumber, s.leafSequence, s.topMost⟩

def noSoi (s : Sequence V) : Sequence V := { s with wroteSoi := false }

end Sequence

namespace Nest

/-- A Sequence and those below it. -/
def all (n : Nest V) : List (Sequence V) := n.self :: n.below

def tags (n : Nest V) : List Tags := n.all.map Sequence.tags

/-- For each Sequence of a nest, whether it wrote the start of an instance. -/
def wrote (n : Nest V) : List Bool := n.all.map Sequence.wroteSoi

def noSoi (n : Nest V) : Nest V := ⟨n.self.noSoi, n.below.map Sequence.noSoi⟩

@[simp]
theorem tags_setReadP (state : Bool) (n : Nest V) : (n.setReadP state).tags = n.tags := by
  simp [tags, all, setReadP, Sequence.tags]

@[simp]
theorem wrote_setReadP (state : Bool) (n : Nest V) : (n.setReadP state).wrote = n.wrote := by
  simp [wrote, all, setReadP]

@[simp]
theorem noSoi_setReadP (state : Bool) (n : Nest V) : (n.setReadP state).noSoi = n.noSoi.setReadP state := by
  simp [noSoi, setReadP, Sequence.noSoi]

@[simp]
theorem tags_setRowNumber (i : Int) (n : Nest V) : (n.setRowNumber i).tags = n.tags := rfl

@[simp]
theorem wrote_setRowNumber (i : Int) (n : Nest V) : (n.setRowNumber i).wrote = n.wrote := rfl

@[simp]
theorem noSoi_setRowNumber (i : Int) (n : Nest V) : (n.setRowNumber i).noSoi = n.noSoi.setRowNumber i := rfl

end Nest

namespace Sequence

/-- Reading changes neither how a Sequence is read nor what it wrote. -/
theorem read_keeps (s : Sequence V) (below : List (Sequence V)) :
    (s.read below).2.tags = (⟨s, below⟩ : Nest V).tags ∧ (s.read below).2.wrote = (⟨s, below⟩ : Nest V).wrote := by
  induction below generalizing s with
  | nil =>
      unfold read
      split
      · exact ⟨rfl, rfl⟩
      · split <;> exact ⟨rfl, rfl⟩
  | cons c below ih =>
      unfold read
      split
      · exact ⟨rfl, rfl⟩
      · split
        · exact ⟨rfl, rfl⟩
        · rename_i child ahead same
          have inner := ih (c.started child)
          exact ⟨congrArg (s.tags :: ·) inner.1, congrArg (s.wroteSoi :: ·) inner.2⟩

/-- What a Sequence wrote has no part in reading. -/
theorem read_noSoi (s : Sequence V) (below : List (Sequence V)) :
    s.noSoi.read (below.map noSoi) = ((s.read below).1, (s.read below).2.noSoi) := by
  induction below generalizing s with
  | nil =>
      simp only [List.map_nil, read, noSoi]
      split
      · rfl
      · split <;> rfl
  | cons c below ih =>
      simp only [List.map_cons, read]
      by_cases done : s.readP
      · simp [done, noSoi, Nest.noSoi]
      · cases rows : s.ahead with
        | nil => simp [done, rows, noSoi, Nest.noSoi, ended]
        | cons row ahead =>
            obtain ⟨vars, child⟩ := row
            have inner := ih (c.started child)
            simp only [noSoi, started] at inner
            simp [done, rows, noSoi, Nest.noSoi, loaded, started, inner]

end Sequence

namespace Nest

/-- `read_row` changes neither. -/
def SameTags (n m : Nest V) : Prop := m.tags = n.tags ∧ m.wrote = n.wrote

theorem SameTags.trans {n m k : Nest V} (first : n.SameTags m) (second : m.SameTags k) : n.SameTags k :=
  ⟨second.1.trans first.1, second.2.trans first.2⟩

theorem sameTags_setReadP (state : Bool) (n : Nest V) : n.SameTags (n.setReadP state) := by simp [SameTags]

theorem readNext_keeps (n : Nest V) : n.SameTags n.readNext.2 := by
  unfold readNext
  split
  · exact ⟨rfl, rfl⟩
  · exact Sequence.read_keeps n.self n.below

theorem readRows_keeps (selected : V → Bool) (row : Int) (fuel : Nat) (n : Nest V) :
    Ensures (fun r => n.SameTags r.2) (readRows selected row fuel n) := by
  induction fuel generalizing n with
  | zero => exact ensures_error
  | succ fuel ih =>
      unfold readRows
      split
      · have step := readNext_keeps n
        generalize n.readNext = r at step
        obtain ⟨eof, m⟩ := r
        cases eof with
        | true => exact ensures_ok.mpr (step.trans (sameTags_setReadP _ _))
        | false =>
            dsimp only
            split
            · contradiction
            · split
              · exact (ih _).mono fun r same =>
                  (step.trans (sameTags_setReadP false (m.setRowNumber (m.self.rowNumber + 1)))).trans same
              · exact (ih _).mono fun r same => (step.trans (sameTags_setReadP _ _)).trans same
      · exact ensures_ok.mpr ⟨rfl, rfl⟩

theorem readRow_keeps (selected : V → Bool) (row : Int) (n : Nest V) :
    Ensures (fun r => n.SameTags r.2) (n.readRow selected row) := by
  unfold readRow
  split
  · exact ensures_error
  · split
    · exact ensures_ok.mpr ⟨rfl, rfl⟩
    · exact (readRows_keeps selected row _ n).bind fun r same =>
        ensures_ok.mpr (same.trans (sameTags_setReadP _ _))

theorem readNext_noSoi (n : Nest V) : n.noSoi.readNext = (n.readNext.1, n.readNext.2.noSoi) := by
  have read := Sequence.read_noSoi n.self n.below
  unfold readNext
  by_cases done : n.self.readP
  · simp [noSoi, Sequence.noSoi, done]
  · have same : n.noSoi.self.readP = n.self.readP := rfl
    rw [if_neg done, if_neg (by rwa [same])]
    exact read

/-- What was written has no part in `read_row`. -/
theorem readRows_noSoi (selected : V → Bool) (row : Int) (fuel : Nat) (n : Nest V) :
    readRows selected row fuel n.noSoi = (readRows selected row fuel n).map fun r => (r.1, r.2.noSoi) := by
  induction fuel generalizing n with
  | zero => rfl
  | succ fuel ih =>
      have number : n.noSoi.self.rowNumber = n.self.rowNumber := rfl
      unfold readRows
      rw [number, readNext_noSoi]
      split
      · generalize n.readNext = r
        obtain ⟨eof, m⟩ := r
        cases eof with
        | true => simp [Except.map]
        | false =>
            have vars : m.noSoi.self.vars = m.self.vars := rfl
            have count : m.noSoi.self.rowNumber = m.self.rowNumber := rfl
            simp only [vars, count, Bool.false_eq_true, if_false, ← noSoi_setRowNumber, ← noSoi_setReadP]
            split <;> exact ih _
      · rfl

theorem readRow_noSoi (selected : V → Bool) (row : Int) (n : Nest V) :
    n.noSoi.readRow selected row = (n.readRow selected row).map fun r => (r.1, r.2.noSoi) := by
  have number : n.noSoi.self.rowNumber = n.self.rowNumber := rfl
  have ahead : n.noSoi.self.ahead = n.self.ahead := rfl
  unfold readRow
  rw [number, ahead, readRows_noSoi]
  split
  · rfl
  · split
    · rfl
    · cases readRows selected row (n.self.ahead.length + 2) n with
      | error e => rfl
      | ok r => simp [Except.map, bind, Except.bind, pure, Except.pure]

/-- Before and after `read_row`, a nest and one that has not written anything. -/
theorem readRow_inStep (selected : V → Bool) (row : Int) (n : Nest V) :
    InStep .unread (fun r q => (r.1, r.2.noSoi) = q ∧ n.SameTags r.2) (n.readRow selected row)
      (n.noSoi.readRow selected row) := by
  rw [readRow_noSoi]
  exact ((InStep.map_right _ _).ensures (readRow_keeps selected row n) (fun _ _ => trivial)).mono
    fun r q both => ⟨both.1, both.2.1⟩

end Nest

/-! ## The walk -/

/-- Where a walk ends, and the rows that have data to send. -/
structure Walked (V : Type) where
  nest : Nest V
  rows : List (BaseTypeRow V)

namespace Nest

def walkLeafRows (selected : V → Bool) : Nat → Bool → Int → Nest V → Except Failure (Walked V)
  | 0, _, _, _ => .error .outOfFuel
  | fuel + 1, status, i, n =>
      if status && !n.self.isEndOfRows i then do
        let (status, next) ← (n.setReadP false).readRow selected (i32 (i + n.self.rowStride))
        let others ← walkLeafRows selected fuel status (i32 (i + n.self.rowStride)) next
        return { others with rows := .mk n.self.vars [] :: others.rows }
      else return ⟨n, []⟩

def walkLeaf (selected : V → Bool) (n : Nest V) : Except Failure (Walked V) := do
  let (status, next) ← n.readRow selected n.self.firstRow
  walkLeafRows selected (next.self.ahead.length + 2) status n.self.firstRow next

/-- Walk through the instance of the child, for the row of its parent that has been read and not
    been sent. -/
def walkChild (walk : Nest V → Except Failure (Walked V)) (n : Nest V) : Except Failure (Walked V) :=
  match n.below with
  | [] => return ⟨n, []⟩
  | c :: below =>
      if n.self.unsentData then do
        let w ← walk ⟨c, below⟩
        if w.rows.isEmpty then return ⟨⟨n.self, w.nest.all⟩, []⟩
        else return ⟨⟨{ n.self with unsentData := false }, w.nest.all⟩, [.mk n.self.vars w.rows]⟩
      else .error .unread

def walkParentRows (walk : V → Nest V → Except Failure (Walked V)) :
    Nat → Bool → Int → Nest V → Except Failure (Walked V)
  | 0, _, _, _ => .error .outOfFuel
  | fuel + 1, status, i, n =>
      if status && !n.self.isEndOfRows i then do
        let row ← walkChild (walk n.self.vars) n
        let (status, next) ← (row.nest.setReadP false).readRow (fun _ => true) (i32 (i + n.self.rowStride))
        let others ← walkParentRows walk fuel status (i32 (i + n.self.rowStride)) next
        return ⟨others.nest, row.rows ++ others.rows⟩
      else return ⟨n, []⟩

def walkParent (walk : V → Nest V → Except Failure (Walked V)) (n : Nest V) : Except Failure (Walked V) := do
  let (status, next) ← n.readRow (fun _ => true) n.self.firstRow
  let w ← walkParentRows walk (next.self.ahead.length + 2) status n.self.firstRow next
  return { w with nest := w.nest.setRowNumber (-1) }

/-- Walk through a Sequence with so many below it, inside of rows with these variables. -/
def walk (selection : List V → Bool) : Nat → List V → Nest V → Except Failure (Walked V)
  | 0, around, n =>
      if n.self.leafSequence then walkLeaf (fun vars => selection (vars :: around)) n
      else walkParent (fun _ n => return ⟨n, []⟩) n
  | depth + 1, around, n =>
      if n.self.leafSequence then walkLeaf (fun vars => selection (vars :: around)) n
      else walkParent (fun vars => walk selection depth (vars :: around)) n

end Nest

/-! ## Sending goes in step -/

/-- What is written for a row of a Sequence with so many below it. -/
def BaseTypeRow.events : Nat → Nat → BaseTypeRow V → List (Event V)
  | 0, level, row => [.startOfInstance level, .vars row.vars]
  | depth + 1, level, row =>
      [.startOfInstance level, .vars row.vars] ++ row.child.flatMap (events depth (level + 1)) ++
        [.endOfSequence (level + 1)]

namespace Sequence

@[simp]
theorem length_partTwo (above : List (Sequence V)) : (partTwo above).1.length = above.length := by
  induction above with
  | nil => rfl
  | cons s above ih =>
      simp only [partTwo]
      split <;> simp [ih]

@[simp]
theorem vars_partTwo (above : List (Sequence V)) : (partTwo above).1.map vars = above.map vars := by
  induction above with
  | nil => rfl
  | cons s above ih =>
      simp only [partTwo]
      split <;> simp [ih]

theorem partTwo_unsent {s : Sequence V} (above : List (Sequence V)) (unsent : s.unsentData = true) :
    partTwo (s :: above) = ({ s with wroteSoi := true, unsentData := false } :: (partTwo above).1,
      (partTwo above).2 ++ [.startOfInstance above.length, .vars s.vars]) := by
  simp [partTwo, unsent]

/-- Once sent, the rows around a Sequence are not sent again. -/
@[simp]
theorem partTwo_partTwo (above : List (Sequence V)) : partTwo (partTwo above).1 = ((partTwo above).1, []) := by
  induction above with
  | nil => rfl
  | cons s above ih =>
      by_cases unsent : s.unsentData
      · simp [partTwo, unsent, ih]
      · simp [partTwo, unsent, ih]

/-- A parent has only written the start of an instance while its rows are sent. -/
def Silent (s : Sequence V) : Prop := s.leafSequence = false → s.wroteSoi = false

end Sequence

/-- The leaves are tagged, from a Sequence on to those below it, and the others are not
    top-most. -/
def Tagged : List Tags → Prop
  | [] => True
  | t :: below => t.leafSequence = below.isEmpty ∧ (∀ c ∈ below, c.topMost = false) ∧ Tagged below

/-- Rows that are sent by some Sequence of a nest, as they are walked through: from the nest
    `n` on with `depth` Sequences below it, inside of the Sequences `above`. -/
structure SendsRows (depth : Nat) (above : List (Sequence V)) (n : Nest V) (sent : Sent V) (w : Walked V) : Prop where
  nest : sent.2.1.noSoi = w.nest
  tags : sent.2.1.tags = n.tags
  silent : ∀ s ∈ sent.2.1.below, s.Silent
  around : sent.1 = if w.rows.isEmpty then above else (Sequence.partTwo above).1
  wrote : sent.2.1.self.wroteSoi = (n.self.wroteSoi || !w.rows.isEmpty)
  out : sent.2.2 = (if w.rows.isEmpty then [] else (Sequence.partTwo above).2) ++
    w.rows.flatMap (BaseTypeRow.events depth above.length)

/-- All that is sent of an instance. -/
structure SendsInstance (depth : Nat) (above : List (Sequence V)) (n : Nest V) (sent : Sent V) (w : Walked V) :
    Prop where
  nest : sent.2.1.noSoi = w.nest
  tags : sent.2.1.tags = n.tags
  silent : ∀ s ∈ sent.2.1.all, s.Silent
  around : sent.1 = if w.rows.isEmpty then above else (Sequence.partTwo above).1
  out : sent.2.2 = (if w.rows.isEmpty then [] else (Sequence.partTwo above).2) ++
    w.rows.flatMap (BaseTypeRow.events depth above.length) ++
    if n.self.topMost || !w.rows.isEmpty then [.endOfSequence above.length] else []

namespace SendsRows

variable {depth : Nat} {above : List (Sequence V)}

theorem nothing (depth : Nat) (above : List (Sequence V)) {n : Nest V} (silent : ∀ s ∈ n.below, s.Silent) :
    SendsRows depth above n (above, n, []) ⟨n.noSoi, []⟩ where
  nest := rfl
  tags := rfl
  silent := silent
  around := rfl
  wrote := by simp
  out := by simp

/-- Rows are sent after others, with the rows around them sent once. -/
theorem append {n next : Nest V} {first others : Sent V} {v w : Walked V} (h : SendsRows depth above n first v)
    (same : first.2.1.SameTags next) (h' : SendsRows depth first.1 next others w) :
    SendsRows depth above n (others.1, others.2.1, first.2.2 ++ others.2.2)
      ⟨w.nest, v.rows ++ w.rows⟩ where
  nest := h'.nest
  tags := h'.tags.trans (same.1.trans h.tags)
  silent := h'.silent
  around := by
    rw [h'.around, h.around]
    cases v.rows <;> cases w.rows <;> simp
  wrote := by
    have wrote : next.self.wroteSoi = first.2.1.self.wroteSoi := (List.cons.inj same.2).1
    rw [h'.wrote, wrote, h.wrote]
    cases v.rows <;> cases w.rows <;> simp
  out := by
    have length : first.1.length = above.length := by
      rw [h.around]
      split <;> simp
    rw [h'.out, h.out, length, h.around]
    cases v.rows <;> cases w.rows <;> simp

end SendsRows

namespace Nest

variable {selection : List V → Bool}

/-- A leaf has data to send as soon as it has a row. -/
theorem walkLeafRows_isEmpty (selected : V → Bool) (fuel : Nat) (status : Bool) (i : Int) (n : Nest V) :
    Ensures (fun w => w.rows.isEmpty = !(status && !n.self.isEndOfRows i))
      (walkLeafRows selected fuel status i n) := by
  induction fuel generalizing status i n with
  | zero => exact ensures_error
  | succ fuel ih =>
      unfold walkLeafRows
      split
      · rename_i more
        refine Ensures.bind (P := fun _ => True) (fun _ _ => trivial) fun r _ => (ih _ _ r.2).bind fun w others => ?_
        exact ensures_ok.mpr (by simp [more])
      · rename_i none
        exact ensures_ok.mpr (by simp [none])

theorem sendLeafRows_inStep (above : List (Sequence V)) (fuel : Nat) (status : Bool) (i : Int) (n : Nest V) :
    InStep .unread (fun r w => r.1.noSoi = w.nest ∧ r.1.tags = n.tags ∧
        r.1.self.wroteSoi = (n.self.wroteSoi || !w.rows.isEmpty) ∧
        r.2 = w.rows.flatMap (BaseTypeRow.events 0 above.length))
      (sendLeafRows selection above fuel status i n)
      (walkLeafRows (selected selection above) fuel status i n.noSoi) := by
  induction fuel generalizing status i n with
  | zero => exact .error _
  | succ fuel ih =>
      have ends : n.noSoi.self.isEndOfRows i = n.self.isEndOfRows i := rfl
      unfold sendLeafRows walkLeafRows
      rw [ends]
      split
      · have read := readRow_inStep (selected selection above) (i32 (i + n.self.rowStride))
          (({ n with self := { n.self with wroteSoi := true } } : Nest V).setReadP false)
        rw [noSoi_setReadP] at read
        refine read.bind fun r q both => ?_
        obtain ⟨rfl, same⟩ := both
        refine (ih r.1 _ r.2).bind fun sent w rest => .ok ⟨rest.1, ?_, ?_, ?_⟩
        · rw [rest.2.1, same.1, tags_setReadP]
          rfl
        · have wrote : r.2.self.wroteSoi = true := (List.cons.inj same.2).1
          simp [rest.2.2.1, wrote]
        · rw [rest.2.2.2]
          rfl
      · exact .ok ⟨rfl, rfl, by simp, rfl⟩

/-- What is left to do after the rows of a leaf: its end is marked if it has rows. -/
theorem sendsInstance_leaf {above : List (Sequence V)} {n next : Nest V} {rows : List (Event V)} {w : Walked V}
    (leaf : n.tags = [n.self.tags]) (tagged : n.self.leafSequence = true) (nest : next.noSoi = w.nest)
    (tags : next.tags = n.tags) (wrote : next.self.wroteSoi = !w.rows.isEmpty)
    (out : rows = w.rows.flatMap (BaseTypeRow.events 0 above.length)) :
    SendsInstance 0 above n
      ((if w.rows.isEmpty then above else (Sequence.partTwo above).1), next,
        (if w.rows.isEmpty then [] else (Sequence.partTwo above).2) ++ rows ++
          if next.self.wroteSoi || next.self.topMost then [.endOfSequence above.length] else []) w := by
  have both := tags.trans leaf
  simp only [Nest.tags, all, List.map_cons, List.cons.injEq, List.map_eq_nil_iff] at both
  obtain ⟨self, below⟩ := both
  have isLeaf : next.self.leafSequence = true := (congrArg Tags.leafSequence self).trans tagged
  have top : next.self.topMost = n.self.topMost := congrArg Tags.topMost self
  refine ⟨nest, tags, fun s mem inner => ?_, rfl, ?_⟩
  · rw [all, below, List.mem_singleton] at mem
    rw [mem, isLeaf] at inner
    cases inner
  · rw [wrote, top, out, Bool.or_comm, List.append_assoc]

theorem serializeLeaf_inStep (above : List (Sequence V)) (n : Nest V) (leaf : n.tags = [n.self.tags])
    (tagged : n.self.leafSequence = true) :
    InStep .unread (SendsInstance 0 above n) (serializeLeaf selection above n)
      (walkLeaf (selected selection above) n.noSoi) := by
  unfold serializeLeaf walkLeaf
  refine (readRow_inStep _ _ n).bind fun r q both => ?_
  obtain ⟨rfl, same⟩ := both
  obtain ⟨status, next⟩ := r
  have rows : ∀ around : List (Sequence V), around.map Sequence.vars = above.map Sequence.vars →
      InStep .unread (fun r w => r.1.noSoi = w.nest ∧ r.1.tags = n.tags ∧ r.1.self.wroteSoi = !w.rows.isEmpty ∧
          r.2 = w.rows.flatMap (BaseTypeRow.events 0 above.length))
        (sendLeafRows selection around (next.self.ahead.length + 2) status n.self.firstRow
          { next with self := { next.self with wroteSoi := false } })
        (walkLeafRows (selected selection above) (next.self.ahead.length + 2) status n.self.firstRow
          next.noSoi) := by
    intro around vars
    have length := congrArg List.length vars
    rw [List.length_map, List.length_map] at length
    have alike : selected selection around = selected selection above := by
      funext v
      rw [selected, selected, vars]
    rw [← alike, ← length]
    exact (sendLeafRows_inStep around _ status _ _).mono fun r w sent =>
      ⟨sent.1, sent.2.1.trans same.1, sent.2.2.1, sent.2.2.2⟩
  have empty := walkLeafRows_isEmpty (selected selection above) (next.self.ahead.length + 2) status
    n.self.firstRow next.noSoi
  have ends : next.noSoi.self.isEndOfRows n.self.firstRow = next.self.isEndOfRows n.self.firstRow := rfl
  rw [ends] at empty
  by_cases more : (status && !next.self.isEndOfRows n.self.firstRow) = true
  · simp only [more, if_true]
    refine ((rows _ (Sequence.vars_partTwo above)).ensures (fun _ _ => trivial) empty).bind_left
      fun sent w both => .ok ?_
    obtain ⟨⟨nest, tags, wrote, out⟩, -, isEmpty⟩ := both
    have some_ : w.rows.isEmpty = false := by rw [isEmpty, more]; rfl
    have sends := sendsInstance_leaf leaf tagged nest tags wrote out
    simp only [some_, Bool.false_eq_true, if_false] at sends
    rwa [Sequence.length_partTwo]
  · rw [Bool.not_eq_true] at more
    simp only [more, Bool.false_eq_true, if_false]
    refine ((rows above rfl).ensures (fun _ _ => trivial) empty).bind_left fun sent w both => .ok ?_
    obtain ⟨⟨nest, tags, wrote, out⟩, -, isEmpty⟩ := both
    have none : w.rows.isEmpty = true := by rw [isEmpty, more]; rfl
    have sends := sendsInstance_leaf leaf tagged nest tags wrote out
    simpa only [none, if_true, List.nil_append] using sends

/-- The child is sent inside of its parent, whose row goes before the first one of the child. -/
theorem serializeChild_inStep {depth : Nat} {serialize : List (Sequence V) → Nest V → Except Failure (Sent V)}
    {walk : Nest V → Except Failure (Walked V)} {above : List (Sequence V)} {self c : Sequence V}
    {below : List (Sequence V)} (inside : c.topMost = false)
    (inner : InStep .unread (SendsInstance depth (self :: above) ⟨c, below⟩) (serialize (self :: above) ⟨c, below⟩)
      (walk (⟨c, below⟩ : Nest V).noSoi)) :
    InStep .unread (SendsRows (depth + 1) above ⟨self, c :: below⟩) (serializeChild serialize above ⟨self, c :: below⟩)
      (walkChild walk (⟨self, c :: below⟩ : Nest V).noSoi) := by
  simp only [serializeChild, walkChild, noSoi, List.map_cons]
  by_cases unsent : self.unsentData
  swap
  · rw [if_neg (show ¬self.noSoi.unsentData = true from unsent)]
    exact .giveUp _
  rw [if_pos (show self.noSoi.unsentData = true from unsent)]
  refine inner.bind fun sent w sends => ?_
  obtain ⟨nest, tags, silent, around, out⟩ := sends
  have all : w.nest.all = sent.2.1.all.map Sequence.noSoi := by
    rw [← nest]
    rfl
  rw [Sequence.partTwo_unsent above unsent] at around out
  cases empty : w.rows.isEmpty with
  | true =>
      rw [empty, if_pos rfl] at around
      refine .ok ⟨?_, ?_, silent, ?_, ?_, ?_⟩
      · rw [around, all]
        rfl
      · rw [around]
        exact congrArg (_ :: ·) tags
      · rw [around]
        rfl
      · rw [around]
        simp
      · rw [out, empty]
        simp [inside, List.isEmpty_iff.mp empty]
  | false =>
      rw [empty, if_neg Bool.false_ne_true] at around
      refine .ok ⟨?_, ?_, silent, ?_, ?_, ?_⟩
      · rw [around, all]
        rfl
      · rw [around]
        exact congrArg (_ :: ·) tags
      · rw [around]
        rfl
      · rw [around]
        simp
      · rw [out, empty]
        simp [BaseTypeRow.events, Sequence.noSoi]

theorem silent_iff (l : List (Sequence V)) : (∀ s ∈ l, s.Silent) ↔
    ∀ p ∈ (l.map Sequence.tags).zip (l.map Sequence.wroteSoi), p.1.leafSequence = false → p.2 = false := by
  rw [List.zip_map', List.forall_mem_map]
  rfl

theorem SameTags.silent {n m : Nest V} (same : n.SameTags m) (silent : ∀ s ∈ n.below, s.Silent) :
    ∀ s ∈ m.below, s.Silent := by
  rw [silent_iff, (List.cons.inj same.1).2, (List.cons.inj same.2).2]
  exact (silent_iff n.below).mp silent

theorem sendParentRows_inStep {depth : Nat} {serialize : List (Sequence V) → Nest V → Except Failure (Sent V)}
    {walk : V → Nest V → Except Failure (Walked V)} {around : List V} {c : Tags} {below : List Tags}
    (inside : c.topMost = false)
    (inner : ∀ (self : Sequence V) above (m : Nest V), above.map Sequence.vars = around → m.tags = c :: below →
      (∀ s ∈ m.all, s.Silent) → InStep .unread (SendsInstance depth (self :: above) m) (serialize (self :: above) m)
        (walk self.vars m.noSoi))
    (fuel : Nat) (status : Bool) (i : Int) (above : List (Sequence V)) (n : Nest V)
    (vars : above.map Sequence.vars = around) (tags : n.tags = n.self.tags :: c :: below)
    (silent : ∀ s ∈ n.below, s.Silent) :
    InStep .unread (SendsRows (depth + 1) above n) (sendParentRows serialize fuel status i above n)
      (walkParentRows walk fuel status i n.noSoi) := by
  induction fuel generalizing status i above n with
  | zero => exact .error _
  | succ fuel ih =>
      have ends : n.noSoi.self.isEndOfRows i = n.self.isEndOfRows i := rfl
      unfold sendParentRows walkParentRows
      rw [ends]
      split
      · obtain ⟨self, below'⟩ := n
        cases below' with
        | nil => cases (List.cons.inj tags).2
        | cons first others =>
            have inside_ : first.topMost = false := by
              rw [← inside]
              exact congrArg Tags.topMost (List.cons.inj (List.cons.inj tags).2).1
            have child := serializeChild_inStep inside_
              (inner self above ⟨first, others⟩ vars (List.cons.inj tags).2 silent)
            refine child.bind fun sent w sends => ?_
            have read := readRow_inStep (fun _ => true) (i32 (i + self.rowStride)) (sent.2.1.setReadP false)
            rw [noSoi_setReadP, sends.nest] at read
            refine read.bind fun r q both => ?_
            obtain ⟨rfl, same⟩ := both
            have same_ : sent.2.1.SameTags r.2 := (sameTags_setReadP false _).trans same
            have varsAfter : sent.1.map Sequence.vars = around := by
              rw [sends.around]
              split <;> simp [vars]
            have tagsAfter : r.2.tags = r.2.self.tags :: c :: below := by
              have all := (same_.1.trans sends.tags).trans tags
              rw [(List.cons.inj all).1.symm] at all
              exact all
            refine (ih r.1 _ sent.1 r.2 varsAfter tagsAfter (same_.silent sends.silent)).bind
              fun others w' rest => .ok (sends.append same_ rest)
      · exact .ok (SendsRows.nothing _ _ silent)

theorem serializeParentPartOne_inStep {depth : Nat}
    {serialize : List (Sequence V) → Nest V → Except Failure (Sent V)}
    {walk : V → Nest V → Except Failure (Walked V)} {above : List (Sequence V)} {n : Nest V} {c : Tags}
    {below : List Tags} (inside : c.topMost = false)
    (inner : ∀ (self : Sequence V) above' (m : Nest V), above'.map Sequence.vars = above.map Sequence.vars →
      m.tags = c :: below → (∀ s ∈ m.all, s.Silent) →
      InStep .unread (SendsInstance depth (self :: above') m) (serialize (self :: above') m) (walk self.vars m.noSoi))
    (tags : n.tags = n.self.tags :: c :: below) (parent : n.self.leafSequence = false)
    (silent : ∀ s ∈ n.all, s.Silent) :
    InStep .unread (SendsInstance (depth + 1) above n) (serializeParentPartOne serialize above n)
      (walkParent walk n.noSoi) := by
  unfold serializeParentPartOne walkParent
  refine (readRow_inStep _ _ n).bind fun r q both => ?_
  obtain ⟨rfl, same⟩ := both
  obtain ⟨status, next⟩ := r
  rw [all, List.forall_mem_cons] at silent
  have wroteBefore : next.self.wroteSoi = false := (List.cons.inj same.2).1.trans (silent.1 parent)
  have tagsBefore : next.tags = next.self.tags :: c :: below := by
    rw [(List.cons.inj same.1).1]
    exact same.1.trans tags
  have rows := sendParentRows_inStep inside inner (next.self.ahead.length + 2) status n.self.firstRow
    above next rfl tagsBefore (same.silent silent.2)
  refine rows.bind fun sent w sends => ?_
  obtain ⟨nest, tagsAfter, silentAfter, around, wrote, out⟩ := sends
  have top : sent.2.1.self.topMost = n.self.topMost :=
    congrArg Tags.topMost (List.cons.inj (tagsAfter.trans same.1)).1
  have length : sent.1.length = above.length := by
    rw [around]
    split <;> simp
  by_cases marks : sent.2.1.self.topMost || sent.2.1.self.wroteSoi
  · have marks' : ((sent.2.1.setRowNumber (-1)).self.topMost || (sent.2.1.setRowNumber (-1)).self.wroteSoi) = true :=
      marks
    simp only [marks', if_true]
    refine .ok ⟨?_, tagsAfter.trans same.1, ?_, around, ?_⟩
    · rw [← nest]
      rfl
    · exact List.forall_mem_cons.mpr ⟨fun _ => rfl, silentAfter⟩
    · rw [top, wrote, wroteBefore, Bool.false_or] at marks
      dsimp only
      rw [out, length, if_pos marks]
  · have marks' : ((sent.2.1.setRowNumber (-1)).self.topMost || (sent.2.1.setRowNumber (-1)).self.wroteSoi) = false :=
      Bool.not_eq_true _ ▸ marks
    simp only [marks', Bool.false_eq_true, if_false]
    refine .ok ⟨?_, tagsAfter.trans same.1, ?_, around, ?_⟩
    · rw [← nest]
      rfl
    · exact List.forall_mem_cons.mpr ⟨fun _ => (Bool.or_eq_false_iff.mp marks').2, silentAfter⟩
    · rw [top, wrote, wroteBefore, Bool.false_or] at marks
      dsimp only
      rw [out, if_neg marks, List.append_nil]

/-- Sending goes in step with the walk, and what it writes are the rows of the walk. -/
theorem serializeNest_inStep (selection : List V → Bool) (depth : Nat) (above : List (Sequence V)) (n : Nest V)
    (tagged : Tagged n.tags) (length : n.below.length = depth) (silent : ∀ s ∈ n.all, s.Silent) :
    InStep .unread (SendsInstance depth above n) (serializeNest selection depth above n)
      (walk selection depth (above.map Sequence.vars) n.noSoi) := by
  induction depth generalizing above n with
  | zero =>
      have below := List.length_eq_zero_iff.mp length
      have leaf : n.tags = [n.self.tags] := by rw [tags, all, below]; rfl
      have isLeaf : n.self.leafSequence = true := by
        rw [leaf] at tagged
        exact tagged.1
      have isLeaf' : n.noSoi.self.leafSequence = true := isLeaf
      rw [serializeNest, walk, if_pos isLeaf, if_pos isLeaf']
      exact serializeLeaf_inStep above n leaf isLeaf
  | succ depth ih =>
      obtain ⟨self, below⟩ := n
      cases below with
      | nil => cases length
      | cons c below =>
          have parent : self.leafSequence = false := tagged.1
          rw [serializeNest, walk, if_neg (by simp [parent]), if_neg (by simp [noSoi, Sequence.noSoi, parent])]
          refine serializeParentPartOne_inStep (tagged.2.1 c.tags List.mem_cons_self) ?_ rfl parent silent
          intro self' above' m vars tags silent'
          have tagged' : Tagged m.tags := tags ▸ tagged.2.2
          have length' : m.below.length = depth := by
            have both := congrArg List.length tags
            simp [Nest.tags, all] at both length
            omega
          rw [← vars]
          exact ih (self' :: above') m tagged' length' silent'

end Nest

end Libdap.Dap2
