import Libdap.Dap2.SequenceReading

/-! # The markers at the end of Sequences

A Sequence that is sent writes the marker of its end last, and every marker of an end that is
written before that is one of a Sequence below it. A top-most Sequence always writes its marker.
-/

namespace Libdap.Dap2

open Ints

variable {V : Type}

namespace Nest

/-- What is written ends with the marker of this level, which is written nowhere else. -/
def EndsOnce (level : Nat) (out : List (Event V)) : Prop :=
  ∃ body, out = body ++ [.endOfSequence level] ∧ .endOfSequence level ∉ body

/-- The markers of ends that are written are of inner levels. -/
def Inner (level : Nat) (out : List (Event V)) : Prop := ∀ l, .endOfSequence l ∈ out → level < l

theorem inner_nil (level : Nat) : Inner level ([] : List (Event V)) := by simp [Inner]

theorem inner_append {level : Nat} {out more : List (Event V)} :
    Inner level (out ++ more) ↔ Inner level out ∧ Inner level more := by
  simp only [Inner, List.mem_append, or_imp, forall_and]

/-- What sending inside of Sequences leaves of these. -/
def Around (above above' : List (Sequence V)) : Prop :=
  above'.map (fun s => (s.topMost, s.ahead)) = above.map (fun s => (s.topMost, s.ahead))

theorem Around.length {above above' : List (Sequence V)} (around : Around above above') :
    above'.length = above.length := by
  simpa using congrArg List.length around

theorem around_partTwo (above : List (Sequence V)) : Around above (Sequence.partTwo above).1 := by
  induction above with
  | nil => rfl
  | cons s above ih =>
      simp only [Around, Sequence.partTwo] at ih ⊢
      split
      · rw [List.map_cons, List.map_cons, ih]
      · rw [List.map_cons, List.map_cons, ih]

theorem inner_partTwo (level : Nat) (above : List (Sequence V)) : Inner level (Sequence.partTwo above).2 := by
  induction above with
  | nil => exact inner_nil level
  | cons s above ih =>
      simp only [Sequence.partTwo]
      split
      · exact inner_append.mpr ⟨ih, by simp [Inner]⟩
      · exact ih

/-- What a Sequence has written inside of others, when it is done. -/
structure Ended (above : List (Sequence V)) (n : Nest V) (sent : Sent V) : Prop where
  around : Around above sent.1
  topMost : sent.2.1.self.topMost = n.self.topMost
  out : ∃ body, Inner above.length body ∧
    (sent.2.2 = body ++ [.endOfSequence above.length] ∨ n.self.topMost = false ∧ sent.2.2 = body)

/-- What rows of a Sequence have written inside of others. -/
structure Underway (above : List (Sequence V)) (n : Nest V) (sent : Sent V) : Prop where
  around : Around above sent.1
  topMost : sent.2.1.self.topMost = n.self.topMost
  inner : Inner above.length sent.2.2

variable {selection : List V → Bool}

theorem readRow_topMost (selected : V → Bool) (i : Int) (n : Nest V) :
    Ensures (fun r => r.2.self.topMost = n.self.topMost) (n.readRow selected i) :=
  (readRow_keeps selected i n).mono fun _ same => congrArg Tags.topMost (List.cons.inj same.1).1

/-! ## The leaf -/

theorem sendLeafRows_inner (level : Nat) (above : List (Sequence V)) (fuel : Nat) (status : Bool) (i : Int)
    (n : Nest V) : Ensures (fun r => r.1.self.topMost = n.self.topMost ∧ Inner level r.2)
      (sendLeafRows selection above fuel status i n) := by
  induction fuel generalizing status i n with
  | zero => exact ensures_error
  | succ fuel ih =>
      unfold sendLeafRows
      split
      · refine (readRow_topMost _ _ _).bind fun r same => (ih r.1 _ r.2).bind fun rest sent => ?_
        refine ensures_ok.mpr ⟨sent.1.trans same, inner_append.mpr ⟨?_, sent.2⟩⟩
        simp [Inner]
      · exact ensures_ok.mpr ⟨rfl, inner_nil level⟩

theorem serializeLeaf_ended (above : List (Sequence V)) (n : Nest V) :
    Ensures (Ended above n) (serializeLeaf selection above n) := by
  unfold serializeLeaf
  refine (readRow_topMost _ _ n).bind fun r same => ?_
  obtain ⟨status, m⟩ := r
  have parents : Around above (if (status && !m.self.isEndOfRows n.self.firstRow) = true then Sequence.partTwo above
      else (above, [])).1 ∧ Inner above.length (if (status && !m.self.isEndOfRows n.self.firstRow) = true then
        Sequence.partTwo above else (above, [])).2 := by
    split
    · exact ⟨around_partTwo above, inner_partTwo _ above⟩
    · exact ⟨rfl, inner_nil _⟩
  dsimp only
  generalize (if (status && !m.self.isEndOfRows n.self.firstRow) = true then Sequence.partTwo above
    else (above, [])) = q at parents
  refine (sendLeafRows_inner above.length _ _ _ _ _).bind fun rows sent => ensures_ok.mpr ⟨parents.1, ?_, ?_⟩
  · exact sent.1.trans same
  · refine ⟨q.2 ++ rows.2, inner_append.mpr ⟨parents.2, sent.2⟩, ?_⟩
    dsimp only
    rw [parents.1.length]
    split
    · exact .inl rfl
    · rename_i neither
      have top : rows.1.self.topMost = n.self.topMost := sent.1.trans same
      rw [Bool.or_eq_true, not_or, top] at neither
      exact .inr ⟨Bool.eq_false_iff.mpr neither.2, List.append_nil _⟩

/-! ## The parents -/

variable {serialize : List (Sequence V) → Nest V → Except Failure (Sent V)}

/-- What is written for a child, with the Sequences that it is in. -/
structure Within (above : List (Sequence V)) (sent : Sent V) : Prop where
  around : Around above sent.1
  levels : ∀ l, .endOfSequence l ∈ sent.2.2 → above.length ≤ l

theorem Ended.within {above : List (Sequence V)} {n : Nest V} {sent : Sent V} (ended : Ended above n sent) :
    Within above sent where
  around := ended.around
  levels l mem := by
    obtain ⟨body, inner, out⟩ := ended.out
    obtain out | ⟨-, out⟩ := out
    · rw [out, List.mem_append, List.mem_singleton] at mem
      obtain mem | same := mem
      · exact (inner l mem).le
      · exact (Event.endOfSequence.inj same).ge
    · rw [out] at mem
      exact (inner l mem).le

/-- Without a child nothing is written. -/
theorem within_nothing (above : List (Sequence V)) (n : Nest V) :
    Ensures (Within above) (pure (above, n, []) : Except Failure (Sent V)) := ensures_ok.mpr ⟨rfl, by simp⟩

/-- A child leaves the rows ahead of its parents. -/
theorem serializeChild_underway (inner : ∀ above n, Ensures (Within above) (serialize above n))
    (above : List (Sequence V)) (n : Nest V) :
    Ensures (fun sent => Underway above n sent ∧ sent.2.1.self.ahead = n.self.ahead)
      (serializeChild serialize above n) := by
  unfold serializeChild
  split
  · exact ensures_ok.mpr ⟨⟨rfl, rfl, inner_nil _⟩, rfl⟩
  · refine (inner _ _).bind fun sent within => ?_
    obtain ⟨around, m, out⟩ := sent
    obtain ⟨same, levels⟩ := within
    cases around with
    | nil => cases same
    | cons self around =>
        obtain ⟨both, same⟩ := List.cons.inj same
        obtain ⟨top, ahead⟩ := Prod.mk.inj both
        exact ensures_ok.mpr ⟨⟨same, top, fun l mem => levels l mem⟩, ahead⟩

theorem sendParentRows_underway (inner : ∀ above n, Ensures (Within above) (serialize above n)) (fuel : Nat)
    (status : Bool) (i : Int) (above : List (Sequence V)) (n : Nest V) :
    Ensures (Underway above n) (sendParentRows serialize fuel status i above n) := by
  induction fuel generalizing status i above n with
  | zero => exact ensures_error
  | succ fuel ih =>
      unfold sendParentRows
      split
      · refine (serializeChild_underway inner above n).bind fun sent child => ?_
        refine (readRow_topMost _ _ _).bind fun r same => (ih r.1 _ sent.1 r.2).bind fun others rest => ?_
        refine ensures_ok.mpr ⟨rest.around.trans child.1.around, rest.topMost.trans (same.trans child.1.topMost), ?_⟩
        refine inner_append.mpr ⟨child.1.inner, ?_⟩
        rw [← child.1.around.length]
        exact rest.inner
      · exact ensures_ok.mpr ⟨rfl, rfl, inner_nil _⟩

theorem serializeParentPartOne_ended (inner : ∀ above n, Ensures (Within above) (serialize above n))
    (above : List (Sequence V)) (n : Nest V) :
    Ensures (Ended above n) (serializeParentPartOne serialize above n) := by
  unfold serializeParentPartOne
  refine (readRow_topMost _ _ n).bind fun r same => ?_
  refine (sendParentRows_underway inner _ r.1 _ above r.2).bind fun sent underway => ?_
  have top : sent.2.1.self.topMost = n.self.topMost := underway.topMost.trans same
  dsimp only
  split
  · refine ensures_ok.mpr ⟨underway.around, top, sent.2.2, underway.inner, .inl ?_⟩
    rw [underway.around.length]
  · rename_i neither
    refine ensures_ok.mpr ⟨underway.around, top, sent.2.2, underway.inner, .inr ⟨?_, rfl⟩⟩
    have none_ : sent.2.1.self.topMost ≠ true := fun some_ => neither (by
      show (sent.2.1.self.topMost || _) = true
      rw [some_, Bool.true_or])
    rw [← top]
    exact Bool.eq_false_iff.mpr none_

theorem serializeNest_ended (depth : Nat) (above : List (Sequence V)) (n : Nest V) :
    Ensures (Ended above n) (serializeNest selection depth above n) := by
  induction depth generalizing above n with
  | zero =>
      unfold serializeNest
      split
      · exact serializeLeaf_ended above n
      · exact serializeParentPartOne_ended within_nothing above n
  | succ depth ih =>
      unfold serializeNest
      split
      · exact serializeLeaf_ended above n
      · exact serializeParentPartOne_ended (fun above n => (ih above n).mono fun _ ended => ended.within) above n

/-! ## What is thrown -/

theorem sendLeafRows_raises (above : List (Sequence V)) (fuel : Nat) (status : Bool) (i : Int) (n : Nest V)
    (enough : 0 < fuel ∧ (status = true → n.self.ahead.length + 1 < fuel)) :
    Raises (· = .backingUp) (sendLeafRows selection above fuel status i n) := by
  induction fuel generalizing status i n with
  | zero => exact absurd enough.1 (Nat.lt_irrefl 0)
  | succ fuel ih =>
      unfold sendLeafRows
      split
      · rename_i more
        rw [Bool.and_eq_true] at more
        have room := enough.2 more.1
        refine (readRow_raises _ _ _).bind fun r reads => (ih r.1 _ r.2 ⟨by omega, fun found => ?_⟩).bind
          fun w _ => raises_ok _
        have fewer := readRow_ahead _ _ _ r reads found
        dsimp only at fewer
        omega
      · exact raises_ok _

theorem serializeLeaf_raises (above : List (Sequence V)) (n : Nest V) :
    Raises (· = .backingUp) (serializeLeaf selection above n) := by
  unfold serializeLeaf
  refine (readRow_raises _ _ n).bind fun r _ => ?_
  exact (sendLeafRows_raises _ _ _ _ _ ⟨Nat.succ_pos _, fun _ => Nat.lt_succ_self _⟩).bind fun _ _ => raises_ok _

theorem serializeChild_raises (inner : ∀ above n, Raises (· = .backingUp) (serialize above n))
    (above : List (Sequence V)) (n : Nest V) : Raises (· = .backingUp) (serializeChild serialize above n) := by
  unfold serializeChild
  split
  · exact raises_ok _
  · exact (inner _ _).bind fun _ _ => raises_ok _

theorem sendParentRows_raises (inner : ∀ above n, Raises (· = .backingUp) (serialize above n))
    (within : ∀ above n, Ensures (Within above) (serialize above n)) (fuel : Nat) (status : Bool) (i : Int)
    (above : List (Sequence V)) (n : Nest V)
    (enough : 0 < fuel ∧ (status = true → n.self.ahead.length + 1 < fuel)) :
    Raises (· = .backingUp) (sendParentRows serialize fuel status i above n) := by
  induction fuel generalizing status i above n with
  | zero => exact absurd enough.1 (Nat.lt_irrefl 0)
  | succ fuel ih =>
      unfold sendParentRows
      split
      · rename_i more
        rw [Bool.and_eq_true] at more
        have room := enough.2 more.1
        refine (serializeChild_raises inner above n).bind fun sent sends => ?_
        have ahead := (serializeChild_underway within above n sent sends).2
        refine (readRow_raises _ _ _).bind fun r reads => (ih r.1 _ sent.1 r.2 ⟨by omega, fun found => ?_⟩).bind
          fun w _ => raises_ok _
        have fewer := readRow_ahead _ _ _ r reads found
        rw [ahead] at fewer
        omega
      · exact raises_ok _

theorem serializeParentPartOne_raises (inner : ∀ above n, Raises (· = .backingUp) (serialize above n))
    (within : ∀ above n, Ensures (Within above) (serialize above n)) (above : List (Sequence V)) (n : Nest V) :
    Raises (· = .backingUp) (serializeParentPartOne serialize above n) := by
  unfold serializeParentPartOne
  refine (readRow_raises _ _ n).bind fun r _ => ?_
  refine (sendParentRows_raises inner within _ _ _ _ _ ⟨Nat.succ_pos _, fun _ => Nat.lt_succ_self _⟩).bind
    fun sent _ => ?_
  dsimp only
  split
  · exact raises_ok _
  · exact raises_ok _

theorem serializeNest_raises (depth : Nat) (above : List (Sequence V)) (n : Nest V) :
    Raises (· = .backingUp) (serializeNest selection depth above n) := by
  induction depth generalizing above n with
  | zero =>
      unfold serializeNest
      split
      · exact serializeLeaf_raises above n
      · exact serializeParentPartOne_raises (fun _ _ => raises_ok _) within_nothing above n
  | succ depth ih =>
      unfold serializeNest
      split
      · exact serializeLeaf_raises above n
      · exact serializeParentPartOne_raises ih
          (fun above n => (serializeNest_ended depth above n).mono fun _ ended => ended.within) above n

/-- A top-most Sequence throws, or writes the marker of its end once, and last. -/
theorem serialize_endsOnce (selection : List V → Bool) {n : Nest V} (topMost : n.self.topMost = true) :
    Raises (· = .backingUp) (n.serialize selection) ∧
      Ensures (fun sent => EndsOnce 0 sent.2) (n.serialize selection) := by
  unfold serialize
  refine ⟨(serializeNest_raises _ _ _).bind fun _ _ => raises_ok _, ?_⟩
  refine (serializeNest_ended _ _ _).bind fun sent ended => ensures_ok.mpr ?_
  obtain ⟨body, inner, out | ⟨notTop, -⟩⟩ := ended.out
  · exact ⟨body, out, fun mem => absurd (inner 0 mem) (Nat.lt_irrefl 0)⟩
  · rw [topMost] at notTop
    cases notTop

end Nest

end Libdap.Dap2
