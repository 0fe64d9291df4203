import Mathlib.Data.List.Basic
import Libdap.Dap2.SequenceEnds

/-! # Tags of nested Sequences

Before a dataset is sent, each Sequence is tagged as a leaf or as a parent, and the Sequences
that are in no other one as top-most. The tags say which Sequence sends the rows, and which
one ends with a marker when there are none.
-/

namespace Libdap.Dap2.Tagging

/-- What the tagging of a Sequence reads and sets. -/
structure Marks where
  sendP : Bool
  leafSequence : Bool
  topMost : Bool
  deriving DecidableEq

/-- A variable of a DDS, as far as there may be Sequences in it. -/
inductive Var where
  | simple
  | array (template : Var)
  | grid (array : Var) (maps : List Var)
  | struct (vars : List Var)
  | sequence (marks : Marks) (vars : List Var)

/-- The text of the `Error`. -/
def tooManyNested : String :=
  "This implementation does not support more than one nested sequence at a level. Contact the server administrator."

namespace Var

mutual
/-- `Structure::set_leaf_sequence` -/
def setLeafSequenceStructure (level : Nat) : List Var → Except String (List Var)
  | [] => return []
  | .sequence marks vars :: rest => do
      let v ← setLeafSequence (level + 1) (.sequence marks vars)
      return v :: (← setLeafSequenceStructure (level + 1) rest)
  | .struct vars :: rest => do
      let vars ← setLeafSequenceStructure level vars
      return .struct vars :: (← setLeafSequenceStructure level rest)
  | v :: rest => do return v :: (← setLeafSequenceStructure level rest)

/-- The loop of `Sequence::set_leaf_sequence`, which also gives whether there is a child. -/
def setLeafSequenceMembers (lvl : Nat) (hasChild : Bool) : List Var → Except String (List Var × Bool)
  | [] => return ([], hasChild)
  | .sequence marks vars :: rest =>
      if marks.sendP then
        if hasChild then throw tooManyNested
        else do
          let v ← setLeafSequence (lvl + 1) (.sequence marks vars)
          let (rest, hasChild) ← setLeafSequenceMembers (lvl + 1) true rest
          return (v :: rest, hasChild)
      else do
        let (rest, hasChild) ← setLeafSequenceMembers lvl hasChild rest
        return (.sequence marks vars :: rest, hasChild)
  | .struct vars :: rest => do
      let vars ← setLeafSequenceStructure lvl vars
      let (rest, hasChild) ← setLeafSequenceMembers lvl hasChild rest
      return (.struct vars :: rest, hasChild)
  | v :: rest => do
      let (rest, hasChild) ← setLeafSequenceMembers lvl hasChild rest
      return (v :: rest, hasChild)

/-- `set_leaf_sequence` of a Sequence or of a Structure. -/
def setLeafSequence (lvl : Nat) : Var → Except String Var
  | .sequence marks vars => do
      let topMost := if lvl = 1 then true else marks.topMost
      let (vars, hasChild) ← setLeafSequenceMembers lvl false vars
      return .sequence { marks with topMost, leafSequence := !hasChild } vars
  | .struct vars => do return .struct (← setLeafSequenceStructure lvl vars)
  | v => return v
end

/-- `DDS::tag_nested_sequences` -/
def tagNestedSequences : List Var → Except String (List Var)
  | [] => return []
  | v :: vars => do
      let v ← setLeafSequence 1 v
      return v :: (← tagNestedSequences vars)

end Var

/-! ## Where a variable is -/

namespace Var

/-- The variables in a variable. -/
def members : Var → List Var
  | simple => []
  | array template => [template]
  | grid values maps => values :: maps
  | struct vars => vars
  | sequence _ vars => vars

def isSequence : Var → Bool
  | sequence _ _ => true
  | _ => false

/-- A Sequence with variables that are asked for. -/
def isProjectedSequence : Var → Bool
  | sequence marks _ => marks.sendP
  | _ => false

mutual
/-- A variable without the tags. -/
def untagged : Var → Var
  | simple => simple
  | array template => array (untagged template)
  | grid values maps => grid (untagged values) (untaggedMembers maps)
  | struct vars => struct (untaggedMembers vars)
  | sequence marks vars => sequence ⟨marks.sendP, false, false⟩ (untaggedMembers vars)

def untaggedMembers : List Var → List Var
  | [] => []
  | v :: vars => untagged v :: untaggedMembers vars
end

end Var

open Var

/-- A variable and the one in its place in another tree, with the variables of the first tree
    that it is in, from the outermost one on. -/
inductive Both : List Var → List Var → List Var → Var → Var → Prop
  | here {vars vars' : List Var} {v v' : Var} : (v, v') ∈ vars.zip vars' → Both vars vars' [] v v'
  | inside {vars vars' above : List Var} {a a' v v' : Var} : (a, a') ∈ vars.zip vars' →
      Both a.members a'.members above v v' → Both vars vars' (a :: above) v v'

/-- Whether the traversal comes to the last of these, each of which is in the one before: through
    Structures, and to the Sequences of a Sequence that are projected. -/
def comesTo : Bool → List Var → Bool
  | _, [] => true
  | inSequence, .sequence marks _ :: way => (!inSequence || marks.sendP) && comesTo true way
  | _, .struct _ :: way => comesTo false way
  | _, _ :: _ => false

/-- The marks of a Sequence below the top, where the traversal comes to it or not. -/
structure Marked (comes : Bool) (vars : List Var) (marks marks' : Marks) : Prop where
  sendP : marks'.sendP = marks.sendP
  topMost : marks'.topMost = marks.topMost
  leaf : marks'.leafSequence = if comes then !vars.any isProjectedSequence else marks.leafSequence

/-- Sequences below the top with the tags they get, and nothing else that is different. -/
structure Tagged (inSequence : Bool) (vars vars' : List Var) : Prop where
  same : untaggedMembers vars' = untaggedMembers vars
  marked : ∀ above marks members v', Both vars vars' above (.sequence marks members) v' → ∃ marks' members',
    v' = .sequence marks' members' ∧
      Marked (comesTo inSequence (above ++ [.sequence marks members])) members marks marks'

theorem both_nil {vars' above : List Var} {v v' : Var} : ¬Both [] vars' above v v' := by
  intro both
  cases both with
  | here mem => cases mem
  | inside mem _ => cases mem

theorem both_cons {vars vars' above : List Var} {v v' w w' : Var} : Both (v :: vars) (v' :: vars') above w w' ↔
    (above = [] ∧ w = v ∧ w' = v') ∨ (∃ way, above = v :: way ∧ Both v.members v'.members way w w') ∨
      Both vars vars' above w w' := by
  constructor
  · intro both
    cases both with
    | here mem =>
        obtain ⟨rfl, rfl⟩ | mem := by simpa using mem
        · exact .inl ⟨rfl, rfl, rfl⟩
        · exact .inr (.inr (.here mem))
    | inside mem below =>
        obtain ⟨rfl, rfl⟩ | mem := by simpa using mem
        · exact .inr (.inl ⟨_, rfl, below⟩)
        · exact .inr (.inr (.inside mem below))
  · rintro (⟨rfl, rfl, rfl⟩ | ⟨way, rfl, below⟩ | rest)
    · exact .here List.mem_cons_self
    · exact .inside List.mem_cons_self below
    · cases rest with
      | here mem => exact .here (List.mem_cons_of_mem _ mem)
      | inside mem below => exact .inside (List.mem_cons_of_mem _ mem) below

theorem eq_of_both {vars vars' above : List Var} {v v' : Var} (both : Both vars vars' above v v') :
    vars' = vars → v' = v := by
  have alone : ∀ {vars : List Var} {v v' : Var}, (v, v') ∈ vars.zip vars → v' = v := by
    intro vars v v' mem
    rw [← List.map_id vars, List.zip_map'] at mem
    obtain ⟨w, -, same⟩ := List.mem_map.mp mem
    cases same
    rfl
  induction both with
  | here mem =>
      rintro rfl
      exact alone mem
  | inside mem below ih =>
      rintro rfl
      exact ih (congrArg members (alone mem))

theorem tagged_nil (inSequence : Bool) : Tagged inSequence [] [] where
  same := rfl
  marked _ _ _ _ both := absurd both both_nil

/-- A variable that the traversal does not come to is left as it is. -/
theorem Tagged.cons_left {inSequence : Bool} {v : Var} {vars vars' : List Var}
    (left : ∀ above, comesTo inSequence (v :: above) = false) (others : Tagged inSequence vars vars') :
    Tagged inSequence (v :: vars) (v :: vars') where
  same := congrArg (untagged v :: ·) others.same
  marked above marks ms w' both := by
    obtain ⟨rfl, rfl, rfl⟩ | ⟨way, rfl, below⟩ | rest := both_cons.mp both
    · refine ⟨marks, ms, rfl, rfl, rfl, ?_⟩
      rw [List.nil_append, left]
      rfl
    · refine ⟨marks, ms, eq_of_both below rfl, rfl, rfl, ?_⟩
      rw [List.cons_append, left]
      rfl
    · exact others.marked _ _ _ _ rest

theorem Tagged.cons_struct {inSequence : Bool} {inner inner' vars vars' : List Var} (first : Tagged false inner inner')
    (others : Tagged inSequence vars vars') : Tagged inSequence (.struct inner :: vars) (.struct inner' :: vars') where
  same := by simp only [untaggedMembers, untagged, first.same, others.same]
  marked above marks ms w' both := by
    obtain ⟨-, same, -⟩ | ⟨way, rfl, below⟩ | rest := both_cons.mp both
    · cases same
    · exact first.marked _ _ _ _ below
    · exact others.marked _ _ _ _ rest

/-- What a Sequence is made by `set_leaf_sequence`. -/
def withLeaf (marks : Marks) (leaf : Bool) : Marks := { marks with leafSequence := leaf }

theorem Tagged.cons_sequence {inSequence : Bool} {marks : Marks} {inner inner' vars vars' : List Var}
    (come : inSequence = true → marks.sendP = true) (first : Tagged true inner inner')
    (others : Tagged inSequence vars vars') :
    Tagged inSequence (.sequence marks inner :: vars)
      (.sequence (withLeaf marks (!inner.any isProjectedSequence)) inner' :: vars') where
  same := by simp only [untaggedMembers, untagged, first.same, others.same, withLeaf]
  marked above marks' ms w' both := by
    have comes : (!inSequence || marks.sendP) = true := by
      cases inSequence with
      | false => rfl
      | true => exact come rfl
    obtain ⟨rfl, same, rfl⟩ | ⟨way, rfl, below⟩ | rest := both_cons.mp both
    · cases same
      refine ⟨_, _, rfl, rfl, rfl, ?_⟩
      simp [comesTo, comes, withLeaf]
    · obtain ⟨marks', members', rfl, marked⟩ := first.marked _ _ _ _ below
      refine ⟨marks', members', rfl, ?_⟩
      simpa only [List.cons_append, comesTo, comes, Bool.true_and] using marked
    · exact others.marked _ _ _ _ rest

/-- The traversal comes to a Sequence with two projected Sequences in it. -/
def Forked (inSequence : Bool) (vars : List Var) : Prop :=
  ∃ above marks members, Both vars vars above (.sequence marks members) (.sequence marks members) ∧
    comesTo inSequence (above ++ [.sequence marks members]) = true ∧ 2 ≤ members.countP isProjectedSequence

theorem not_forked_nil (inSequence : Bool) : ¬Forked inSequence [] := by
  rintro ⟨_, _, _, both, -⟩
  exact both_nil both

theorem forked_cons_left {inSequence : Bool} {v : Var} {vars : List Var}
    (left : ∀ above, comesTo inSequence (v :: above) = false) :
    Forked inSequence (v :: vars) ↔ Forked inSequence vars := by
  constructor
  · rintro ⟨above, marks, ms, both, comes, two⟩
    obtain ⟨rfl, rfl, -⟩ | ⟨way, rfl, below⟩ | rest := both_cons.mp both
    · rw [List.nil_append, left] at comes
      cases comes
    · rw [List.cons_append, left] at comes
      cases comes
    · exact ⟨above, marks, ms, rest, comes, two⟩
  · rintro ⟨above, marks, ms, rest, comes, two⟩
    exact ⟨above, marks, ms, both_cons.mpr (.inr (.inr rest)), comes, two⟩

theorem forked_cons_struct {inSequence : Bool} {inner vars : List Var} :
    Forked inSequence (.struct inner :: vars) ↔ Forked false inner ∨ Forked inSequence vars := by
  constructor
  · rintro ⟨above, marks, ms, both, comes, two⟩
    obtain ⟨-, same, -⟩ | ⟨way, rfl, below⟩ | rest := both_cons.mp both
    · cases same
    · exact .inl ⟨way, marks, ms, below, comes, two⟩
    · exact .inr ⟨above, marks, ms, rest, comes, two⟩
  · rintro (⟨above, marks, ms, below, comes, two⟩ | ⟨above, marks, ms, rest, comes, two⟩)
    · exact ⟨.struct inner :: above, marks, ms, both_cons.mpr (.inr (.inl ⟨above, rfl, below⟩)), comes, two⟩
    · exact ⟨above, marks, ms, both_cons.mpr (.inr (.inr rest)), comes, two⟩

theorem forked_cons_sequence {inSequence : Bool} {marks : Marks} {inner vars : List Var}
    (come : inSequence = true → marks.sendP = true) : Forked inSequence (.sequence marks inner :: vars) ↔
      (2 ≤ inner.countP isProjectedSequence ∨ Forked true inner) ∨ Forked inSequence vars := by
  have comesOn : ∀ way, comesTo inSequence (.sequence marks inner :: way) = comesTo true way := by
    intro way
    cases inSequence with
    | false => rfl
    | true => simp [comesTo, come rfl]
  constructor
  · rintro ⟨above, marks', ms, both, comes, two⟩
    obtain ⟨rfl, same, -⟩ | ⟨way, rfl, below⟩ | rest := both_cons.mp both
    · cases same
      exact .inl (.inl two)
    · rw [List.cons_append, comesOn] at comes
      exact .inl (.inr ⟨way, marks', ms, below, comes, two⟩)
    · exact .inr ⟨above, marks', ms, rest, comes, two⟩
  · rintro ((two | ⟨above, marks', ms, below, comes, two⟩) | ⟨above, marks', ms, rest, comes, two⟩)
    · exact ⟨[], marks, inner, .here List.mem_cons_self, comesOn [], two⟩
    · refine ⟨.sequence marks inner :: above, marks', ms, both_cons.mpr (.inr (.inl ⟨above, rfl, below⟩)), ?_, two⟩
      rw [List.cons_append, comesOn]
      exact comes
    · exact ⟨above, marks', ms, both_cons.mpr (.inr (.inr rest)), comes, two⟩

/-! ## What the traversal sets -/

/-- It throws when it comes to two projected Sequences in one, and otherwise gives such a result. -/
def Outcome {α : Type} (forked : Prop) (P : α → Prop) : Except String α → Prop
  | .error e => e = tooManyNested ∧ forked
  | .ok a => ¬forked ∧ P a

namespace Outcome

variable {α β : Type} {forked forked' : Prop} {P : α → Prop} {Q : β → Prop} {x : Except String α}

theorem bind {next : α → Except String β} (first : Outcome forked P x)
    (then_ : ∀ a, P a → Outcome forked' Q (next a)) : Outcome (forked ∨ forked') Q (x >>= next) := by
  cases x with
  | error e => exact ⟨first.1, .inl first.2⟩
  | ok a =>
      have second := then_ a first.2
      show Outcome _ _ (next a)
      cases result : next a with
      | error e =>
          rw [result] at second
          exact ⟨second.1, .inr second.2⟩
      | ok b =>
          rw [result] at second
          exact ⟨not_or.mpr ⟨first.1, second.1⟩, second.2⟩

/-- What follows does not throw. -/
theorem map {f : α → β} (first : Outcome forked P x) (then_ : ∀ a, P a → Q (f a)) :
    Outcome forked Q (x >>= fun a => pure (f a)) := by
  cases x with
  | error e => exact first
  | ok a => exact ⟨first.1, then_ a first.2⟩

theorem congr (same : forked ↔ forked') (outcome : Outcome forked P x) : Outcome forked' P x := by
  rwa [← propext same]

end Outcome

theorem setLeafSequence_outcome {lvl : Nat} (nested : lvl ≠ 1) (marks : Marks) {vars : List Var}
    (members : Outcome (Forked true vars ∨ 2 ≤ vars.countP isProjectedSequence)
      (fun r => Tagged true vars r.1 ∧ r.2 = vars.any isProjectedSequence) (setLeafSequenceMembers lvl false vars)) :
    Outcome (2 ≤ vars.countP isProjectedSequence ∨ Forked true vars)
      (fun v => ∃ vars', Tagged true vars vars' ∧
        v = .sequence (withLeaf marks (!vars.any isProjectedSequence)) vars')
      (setLeafSequence lvl (.sequence marks vars)) := by
  rw [setLeafSequence]
  refine (members.map ?_).congr or_comm
  rintro ⟨vars', hasChild⟩ ⟨tagged, rfl⟩
  refine ⟨vars', tagged, ?_⟩
  simp only [nested, if_false]
  rfl

mutual
theorem setLeafSequenceStructure_outcome {level : Nat} (inside : 1 ≤ level) : (vars : List Var) →
    Outcome (Forked false vars) (Tagged false vars) (setLeafSequenceStructure level vars)
  | [] => ⟨not_forked_nil _, tagged_nil _⟩
  | .sequence marks inner :: vars => by
      have noSequence : false = true → marks.sendP = true := fun same => absurd same Bool.false_ne_true
      have first := setLeafSequence_outcome (show level + 1 ≠ 1 by omega) marks
        ((setLeafSequenceMembers_outcome (Nat.le_succ_of_le inside) false inner).congr (by simp))
      have others := setLeafSequenceStructure_outcome (Nat.le_succ_of_le inside) vars
      rw [setLeafSequenceStructure]
      refine (first.bind fun v tagged => others.map fun vars' tagged' => ?_).congr
        (forked_cons_sequence noSequence).symm
      obtain ⟨inner', tagged, rfl⟩ := tagged
      exact tagged.cons_sequence noSequence tagged'
  | .struct inner :: vars => by
      have first := setLeafSequenceStructure_outcome inside inner
      have others := setLeafSequenceStructure_outcome inside vars
      rw [setLeafSequenceStructure]
      exact (first.bind fun inner' tagged => others.map fun vars' tagged' => tagged.cons_struct tagged').congr
        forked_cons_struct.symm
  | .simple :: vars =>
      ((setLeafSequenceStructure_outcome inside vars).map fun _ tagged =>
        tagged.cons_left fun _ => rfl).congr (forked_cons_left fun _ => rfl).symm
  | .array _ :: vars =>
      ((setLeafSequenceStructure_outcome inside vars).map fun _ tagged =>
        tagged.cons_left fun _ => rfl).congr (forked_cons_left fun _ => rfl).symm
  | .grid _ _ :: vars =>
      ((setLeafSequenceStructure_outcome inside vars).map fun _ tagged =>
        tagged.cons_left fun _ => rfl).congr (forked_cons_left fun _ => rfl).symm

theorem setLeafSequenceMembers_outcome {lvl : Nat} (inside : 1 ≤ lvl) (hasChild : Bool) : (vars : List Var) →
    Outcome (Forked true vars ∨ 2 ≤ hasChild.toNat + vars.countP isProjectedSequence)
      (fun r => Tagged true vars r.1 ∧ r.2 = (hasChild || vars.any isProjectedSequence))
      (setLeafSequenceMembers lvl hasChild vars)
  | [] => by
      refine ⟨?_, tagged_nil _, (Bool.or_false _).symm⟩
      rintro (forked | two)
      · exact not_forked_nil _ forked
      · cases hasChild <;> simp at two
  | .sequence marks inner :: vars => by
      rw [setLeafSequenceMembers]
      cases sendP : marks.sendP with
      | false =>
          have left : ∀ above, comesTo true (.sequence marks inner :: above) = false := by simp [comesTo, sendP]
          have others := setLeafSequenceMembers_outcome inside hasChild vars
          refine (others.map fun r both => ⟨both.1.cons_left left, ?_⟩).congr (or_congr (forked_cons_left left).symm ?_)
          · simp [isProjectedSequence, sendP]
          · simpa [isProjectedSequence, sendP] using both.2
      | true =>
          have first := setLeafSequence_outcome (show lvl + 1 ≠ 1 by omega) marks
            ((setLeafSequenceMembers_outcome (Nat.le_succ_of_le inside) false inner).congr (by simp))
          have others := setLeafSequenceMembers_outcome (Nat.le_succ_of_le inside) true vars
          have counted : (Var.sequence marks inner :: vars).countP isProjectedSequence =
              vars.countP isProjectedSequence + 1 := List.countP_cons_of_pos sendP
          have forked : Forked true (.sequence marks inner :: vars) ↔ _ := forked_cons_sequence fun _ => sendP
          cases hasChild with
          | true =>
              refine ⟨rfl, .inr ?_⟩
              rw [counted, Bool.toNat_true]
              omega
          | false =>
              refine (first.bind fun v tagged => others.map fun r both => ⟨?_, ?_⟩).congr ?_
              · rw [forked, counted, or_assoc, Bool.toNat_false, Bool.toNat_true, Nat.zero_add, Nat.add_comm 1]
                tauto
              · obtain ⟨inner', tagged, rfl⟩ := tagged
                exact tagged.cons_sequence (fun _ => sendP) both.1
              · simp [both.2, isProjectedSequence, sendP]
  | .struct inner :: vars => by
      have first := setLeafSequenceStructure_outcome inside inner
      have others := setLeafSequenceMembers_outcome inside hasChild vars
      rw [setLeafSequenceMembers]
      refine (first.bind fun inner' tagged => others.map fun r both => ⟨tagged.cons_struct both.1, both.2⟩).congr ?_
      rw [forked_cons_struct, or_assoc]
      rfl
  | .simple :: vars =>
      ((setLeafSequenceMembers_outcome inside hasChild vars).map fun _ both =>
        ⟨both.1.cons_left fun _ => rfl, both.2⟩).congr (or_congr (forked_cons_left fun _ => rfl).symm Iff.rfl)
  | .array _ :: vars =>
      ((setLeafSequenceMembers_outcome inside hasChild vars).map fun _ both =>
        ⟨both.1.cons_left fun _ => rfl, both.2⟩).congr (or_congr (forked_cons_left fun _ => rfl).symm Iff.rfl)
  | .grid _ _ :: vars =>
      ((setLeafSequenceMembers_outcome inside hasChild vars).map fun _ both =>
        ⟨both.1.cons_left fun _ => rfl, both.2⟩).congr (or_congr (forked_cons_left fun _ => rfl).symm Iff.rfl)
end

/-! ## The variables of a DDS -/

/-- What a variable of a DDS becomes. -/
inductive TaggedFirst : Var → Var → Prop
  | sequence {marks : Marks} {vars vars' : List Var} : Tagged true vars vars' →
      TaggedFirst (.sequence marks vars)
        (.sequence ⟨marks.sendP, !vars.any isProjectedSequence, true⟩ vars')
  | struct {vars vars' : List Var} : Tagged false vars vars' → TaggedFirst (.struct vars) (.struct vars')
  | left {v : Var} : (∀ above, comesTo false (v :: above) = false) → TaggedFirst v v

theorem setLeafSequence_first : (v : Var) →
    Outcome (Forked false [v]) (TaggedFirst v) (setLeafSequence 1 v)
  | .simple => ⟨fun forked => not_forked_nil _ ((forked_cons_left fun _ => rfl).mp forked), .left fun _ => rfl⟩
  | .array _ => ⟨fun forked => not_forked_nil _ ((forked_cons_left fun _ => rfl).mp forked), .left fun _ => rfl⟩
  | .grid _ _ => ⟨fun forked => not_forked_nil _ ((forked_cons_left fun _ => rfl).mp forked), .left fun _ => rfl⟩
  | .struct vars => by
      rw [setLeafSequence]
      refine ((setLeafSequenceStructure_outcome le_rfl vars).map fun _ tagged => .struct tagged).congr ?_
      rw [forked_cons_struct, or_iff_left (not_forked_nil _)]
  | .sequence marks vars => by
      rw [setLeafSequence]
      refine ((setLeafSequenceMembers_outcome le_rfl false vars).map ?_).congr ?_
      · rintro ⟨vars', hasChild⟩ ⟨tagged, rfl⟩
        exact .sequence tagged
      · rw [forked_cons_sequence (fun same => absurd same Bool.false_ne_true), or_iff_left (not_forked_nil _),
          Bool.toNat_false, Nat.zero_add, or_comm]

theorem forked_cons {inSequence : Bool} {v : Var} {vars : List Var} :
    Forked inSequence (v :: vars) ↔ Forked inSequence [v] ∨ Forked inSequence vars := by
  constructor
  · rintro ⟨above, marks, ms, both, rest⟩
    obtain here | below | others := both_cons.mp both
    · exact .inl ⟨above, marks, ms, both_cons.mpr (.inl here), rest⟩
    · exact .inl ⟨above, marks, ms, both_cons.mpr (.inr (.inl below)), rest⟩
    · exact .inr ⟨above, marks, ms, others, rest⟩
  · rintro (⟨above, marks, ms, both, rest⟩ | ⟨above, marks, ms, others, rest⟩)
    · obtain here | below | none_ := both_cons.mp both
      · exact ⟨above, marks, ms, both_cons.mpr (.inl here), rest⟩
      · exact ⟨above, marks, ms, both_cons.mpr (.inr (.inl below)), rest⟩
      · exact absurd none_ both_nil
    · exact ⟨above, marks, ms, both_cons.mpr (.inr (.inr others)), rest⟩

theorem tagNestedSequences_outcome : (dds : List Var) →
    Outcome (Forked false dds) (List.Forall₂ TaggedFirst dds) (tagNestedSequences dds)
  | [] => ⟨not_forked_nil _, .nil⟩
  | v :: dds => by
      rw [tagNestedSequences]
      exact ((setLeafSequence_first v).bind fun v' first =>
        (tagNestedSequences_outcome dds).map fun dds' others => .cons first others).congr forked_cons.symm

namespace Var

mutual
/-- The tags of a Sequence, and of those that send with it: the projected Sequence in it, and on. -/
def chain : Var → List (Bool × Bool)
  | sequence marks vars => (marks.leafSequence, marks.topMost) :: chainIn vars
  | _ => []

def chainIn : List Var → List (Bool × Bool)
  | [] => []
  | .sequence marks vars :: rest => if marks.sendP then chain (.sequence marks vars) else chainIn rest
  | _ :: rest => chainIn rest
end

end Var

/-- The Sequences of a nest have the tags of a Sequence of the dataset and those in it. -/
def TaggedAs {V : Type} (n : Nest V) (v : Var) : Prop :=
  n.all.map (fun s => (s.leafSequence, s.topMost)) = chain v

/-- The tags that the Sequences of a dataset get. What is said of the top-most ones leaves out
    those that are in a Structure and in no Sequence. -/
structure TagsRight (dds dds' : List Var) : Prop where
  /-- Nothing but the tags is set. -/
  same : untaggedMembers dds' = untaggedMembers dds
  topMost : ∀ marks vars marks' vars', Both dds dds' [] (.sequence marks vars) (.sequence marks' vars') →
    marks'.topMost = true
  inner : ∀ above marks vars marks' vars', Both dds dds' above (.sequence marks vars) (.sequence marks' vars') →
    (∃ a ∈ above, a.isSequence = true) → marks'.topMost = marks.topMost
  leaf : ∀ above marks vars marks' vars', Both dds dds' above (.sequence marks vars) (.sequence marks' vars') →
    comesTo false (above ++ [.sequence marks vars]) = true →
    (marks'.leafSequence = true ↔ ∀ child ∈ vars, child.isProjectedSequence = false)
  left : ∀ above marks vars marks' vars', Both dds dds' above (.sequence marks vars) (.sequence marks' vars') →
    comesTo false (above ++ [.sequence marks vars]) = false → marks' = marks
  ends : ∀ marks vars v', Both dds dds' [] (.sequence marks vars) v' →
    ∀ {V : Type} (selection : List V → Bool) (n : Nest V), TaggedAs n v' →
      Raises (· = .backingUp) (n.serialize selection) ∧
        Ensures (fun sent => Nest.EndsOnce 0 sent.2) (n.serialize selection)

theorem any_eq_false_iff {vars : List Var} :
    (!vars.any isProjectedSequence) = true ↔ ∀ child ∈ vars, child.isProjectedSequence = false := by
  simp

/-- The marks of a Sequence of a DDS, where it is a variable of it or not. -/
theorem marks_of_first {dds dds' above : List Var} (first : List.Forall₂ TaggedFirst dds dds') {marks marks' : Marks}
    {vars vars' : List Var} (both : Both dds dds' above (.sequence marks vars) (.sequence marks' vars')) :
    above = [] ∧ marks' = ⟨marks.sendP, !vars.any isProjectedSequence, true⟩ ∨
      Marked (comesTo false (above ++ [.sequence marks vars])) vars marks marks' := by
  induction first with
  | nil => exact absurd both both_nil
  | cons first others ih =>
      obtain ⟨rfl, rfl, rfl⟩ | ⟨way, rfl, below⟩ | rest := both_cons.mp both
      · cases first with
        | sequence tagged => exact .inl ⟨rfl, rfl⟩
        | left no => exact absurd (no []) (by simp [comesTo])
      · right
        cases first with
        | sequence tagged =>
            obtain ⟨_, _, same, marked⟩ := tagged.marked _ _ _ _ below
            cases same
            exact marked
        | struct tagged =>
            obtain ⟨_, _, same, marked⟩ := tagged.marked _ _ _ _ below
            cases same
            exact marked
        | left no =>
            cases eq_of_both below rfl
            refine ⟨rfl, rfl, ?_⟩
            rw [List.cons_append, no]
            rfl
      · exact ih rest

theorem untagged_of_first {dds dds' : List Var} (first : List.Forall₂ TaggedFirst dds dds') :
    untaggedMembers dds' = untaggedMembers dds := by
  induction first with
  | nil => rfl
  | cons first others ih =>
      cases first with
      | sequence tagged => simp only [untaggedMembers, untagged, tagged.same, ih]
      | struct tagged => simp only [untaggedMembers, untagged, tagged.same, ih]
      | left no => simp only [untaggedMembers, ih]

/-- A variable of the DDS that is a Sequence is tagged as the top-most one. -/
theorem topMost_of_first {dds dds' : List Var} (first : List.Forall₂ TaggedFirst dds dds') {marks : Marks}
    {vars : List Var} {v' : Var} (both : Both dds dds' [] (.sequence marks vars) v') :
    ∃ marks' vars', v' = .sequence marks' vars' ∧ marks'.topMost = true := by
  induction first with
  | nil => exact absurd both both_nil
  | cons first others ih =>
      obtain ⟨-, rfl, rfl⟩ | ⟨way, same, -⟩ | rest := both_cons.mp both
      · cases first with
        | sequence tagged => exact ⟨_, _, rfl, rfl⟩
        | left no => exact absurd (no []) (by simp [comesTo])
      · cases same
      · exact ih rest

/-- `tag_nested_sequences` throws if and only if it comes to a Sequence with two projected
    Sequences in it, and otherwise tags the Sequences it comes to. -/
theorem nestedSequences_tagged (dds : List Var) :
    (Forked false dds ∧ tagNestedSequences dds = .error tooManyNested) ∨
      (¬Forked false dds ∧ ∃ dds', tagNestedSequences dds = .ok dds' ∧ TagsRight dds dds') := by
  have outcome := tagNestedSequences_outcome dds
  cases tagged : tagNestedSequences dds with
  | error e =>
      rw [tagged] at outcome
      obtain ⟨rfl, forked⟩ := outcome
      exact .inl ⟨forked, rfl⟩
  | ok dds' =>
      rw [tagged] at outcome
      obtain ⟨notForked, first⟩ := outcome
      refine .inr ⟨notForked, dds', rfl, untagged_of_first first, ?_, ?_, ?_, ?_, ?_⟩
      · intro marks vars marks' vars' both
        obtain ⟨_, _, same, top⟩ := topMost_of_first first both
        cases same
        exact top
      · intro above marks vars marks' vars' both inside
        obtain ⟨rfl, -⟩ | marked := marks_of_first first both
        · simp at inside
        · exact marked.topMost
      · intro above marks vars marks' vars' both comes
        obtain ⟨-, rfl⟩ | marked := marks_of_first first both
        · exact any_eq_false_iff
        · rw [marked.leaf, if_pos comes]
          exact any_eq_false_iff
      · intro above marks vars marks' vars' both leaves
        obtain ⟨rfl, -⟩ | marked := marks_of_first first both
        · simp [comesTo] at leaves
        · have leaf := marked.leaf
          rw [leaves] at leaf
          obtain ⟨_, _, _⟩ := marks'
          obtain ⟨rfl, rfl, -⟩ := marked
          exact congrArg (Marks.mk _ · _) leaf
      · intro marks vars v' both V selection n taggedAs
        obtain ⟨_, _, rfl, top⟩ := topMost_of_first first both
        refine Nest.serialize_endsOnce selection ?_
        exact (Prod.mk.inj (List.cons.inj taggedAs).1).2.trans top

/-- A Sequence that is not projected stays without its tag. -/
theorem notProjected_untagged : ¬∀ dds dds', untaggedMembers dds = dds → tagNestedSequences dds = .ok dds' →
    ∀ above marks vars marks' vars', Both dds dds' above (.sequence marks vars) (.sequence marks' vars') →
      ((marks'.topMost = true ↔ ∀ a ∈ above, a.isSequence = false) ∧
        (marks'.leafSequence = true ↔ ∀ child ∈ vars, child.isProjectedSequence = false)) := by
  intro claim
  have tags := claim [.sequence ⟨true, false, false⟩ [.simple, .sequence ⟨false, false, false⟩ [.simple]]]
    [.sequence ⟨true, true, true⟩ [.simple, .sequence ⟨false, false, false⟩ [.simple]]] rfl rfl
    [.sequence ⟨true, false, false⟩ [.simple, .sequence ⟨false, false, false⟩ [.simple]]]
    ⟨false, false, false⟩ [.simple] ⟨false, false, false⟩ [.simple]
    (.inside List.mem_cons_self (.here (List.mem_cons_of_mem _ List.mem_cons_self)))
  exact Bool.false_ne_true (tags.2.mpr (by simp [isProjectedSequence]))

end Libdap.Dap2.Tagging
