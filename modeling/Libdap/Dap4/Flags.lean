import Libdap.Dap4.ValidSlices

/-! # The flags of shared dimensions

An array whose slices have been set uses its shared dimensions under their names
only where they are flagged, and stays so whatever is done next.
-/

namespace Libdap.Dap4

namespace Heap

/-- The shared dimension is flagged as used by a projected variable. -/
def Used (h : Heap) (dim : Nat) : Prop := ∃ s ∈ h.dims[dim]?, s.usedByProjectedVar = true

/-- A dimension that is printed by name is flagged. -/
def Covered (h : Heap) (d : Dimension) : Prop := d.useSdimForSlice = true → ∀ dim ∈ d.dim, h.Used dim

/-- Every dimension of the array that has no slice of its own is flagged. -/
def Closed (h : Heap) (a : Nat) : Prop := ∀ d ∈ h.shapeOf a, h.Covered d

theorem Used.use {h : Heap} {dim : Nat} (used : h.Used dim) (dim' : Nat) : (h.use dim').Used dim := by
  obtain ⟨s, at_, flagged⟩ := used
  simp only [Used, Heap.use, List.getElem?_modify, Option.mem_def.mp at_]
  split
  · exact ⟨{ s with usedByProjectedVar := true }, rfl, rfl⟩
  · exact ⟨s, rfl, flagged⟩

theorem used_use {h : Heap} {dim : Nat} {s : D4Dimension} (at_ : h.dims[dim]? = some s) : (h.use dim).Used dim := by
  refine ⟨{ s with usedByProjectedVar := true }, ?_, rfl⟩
  simp [Heap.use, at_]

theorem Covered.later {h h' : Heap} {d : Dimension} (covered : h.Covered d)
    (more : ∀ dim, h.Used dim → h'.Used dim) : h'.Covered d :=
  fun shares dim mem => more dim (covered shares dim mem)

end Heap

/-- One dimension of an array gets its slice. -/
structure Settles (h : Heap) (a k : Nat) (h' : Heap) : Prop where
  at_ : ∃ d, k < (h.shapeOf a).length ∧ h'.shapeOf a = (h.shapeOf a).set k d ∧ h'.Covered d
  others : ∀ b, b ≠ a → h'.shapeOf b = h.shapeOf b
  used : ∀ dim, h.Used dim → h'.Used dim

theorem shareDimension_settles {h h' : Heap} {a k D : Nat} (ok : shareDimension h a k D = .ok h')
    (points : ∀ d ∈ (h.shapeOf a)[k]?, d.dim = some D) : Settles h a k h' := by
  obtain ⟨d, d', s, at_, found, -, dim, -, shape, others, -, dims⟩ := shareDimension_ok ok
  have flags : ∀ D', (h.use D).Used D' → h'.Used D' := fun D' used => by
    unfold Heap.Used at used ⊢
    rw [dims]
    exact used
  refine ⟨⟨d', (List.getElem?_eq_some_iff.mp at_).1, shape, fun _ D' mem => ?_⟩, others, ?_⟩
  · rw [dim, points d at_] at mem
    obtain rfl := Option.some.inj mem
    exact flags D (Heap.used_use found)
  · exact fun D' used => flags D' (used.use D)

theorem sliceLocally_settles {h h' : Heap} {a k : Nat} {i : Index} (ok : sliceLocally h a k i = .ok h') :
    Settles h a k h' := by
  obtain ⟨d, d', at_, -, -, -, -, shape, others, dims, own⟩ := sliceLocally_ok ok
  refine ⟨⟨d', (List.getElem?_eq_some_iff.mp at_).1, shape, fun shares => ?_⟩, others, fun D used => ?_⟩
  · rw [own] at shares
    cases shares
  · unfold Heap.Used at used ⊢
    rw [dims]
    exact used

theorem indexDimension_settles {h h' : Heap} {a k : Nat} {name : Name} {i : Index}
    (ok : indexDimension h a name k i = .ok h') : Settles h a k h' := by
  unfold indexDimension at ok
  split at ok
  · cases ok
  rename_i d found
  split at ok
  · cases ok
  split at ok
  · cases ok
  split at ok
  · rename_i D shared
    split at ok
    · refine shareDimension_settles ok fun e mem => ?_
      obtain rfl := Option.some.inj (found.symm.trans mem)
      exact shared
    · exact sliceLocally_settles ok
  · exact sliceLocally_settles ok

/-- The dimensions in front of `k` are covered. -/
def CoveredTo (h : Heap) (a k : Nat) : Prop := ∀ j < k, ∀ d ∈ (h.shapeOf a)[j]?, h.Covered d

theorem Settles.coveredTo {h h' : Heap} {a k : Nat} (settles : Settles h a k h') (before : CoveredTo h a k) :
    CoveredTo h' a (k + 1) := by
  obtain ⟨d', bound, shape, covered⟩ := settles.at_
  intro j lt d mem
  rw [shape] at mem
  rcases Nat.lt_succ_iff_lt_or_eq.mp lt with less | rfl
  · rw [List.getElem?_set_ne (Nat.ne_of_gt less)] at mem
    exact (before j less d mem).later settles.used
  · rw [List.getElem?_set_self bound] at mem
    obtain rfl := Option.some.inj mem
    exact covered

theorem Settles.length {h h' : Heap} {a k : Nat} (settles : Settles h a k h') :
    (h'.shapeOf a).length = (h.shapeOf a).length := by
  obtain ⟨d, -, shape, -⟩ := settles.at_
  rw [shape, List.length_set]

/-- All slices of an array have been set. -/
structure Closes (h : Heap) (a : Nat) (h' : Heap) : Prop where
  closed : h'.Closed a
  others : ∀ b, b ≠ a → h'.shapeOf b = h.shapeOf b
  used : ∀ dim, h.Used dim → h'.Used dim

theorem closed_of_coveredTo {h : Heap} {a k : Nat} (covered : CoveredTo h a k) (all : (h.shapeOf a).length ≤ k) :
    h.Closed a := by
  intro d mem
  obtain ⟨j, at_⟩ := List.getElem?_of_mem mem
  exact covered j ((List.getElem?_eq_some_iff.mp at_).1.trans_le all) d at_

theorem Closes.after {h h₁ h' : Heap} {a k : Nat} (first : Settles h a k h₁) (rest : Closes h₁ a h') :
    Closes h a h' where
  closed := rest.closed
  others := fun b other => (rest.others b other).trans (first.others b other)
  used := fun dim used => rest.used dim (first.used dim used)

theorem indexDimensions_closes {h h' : Heap} {a k : Nat} {name : Name} {indexes : List Index}
    (ok : indexDimensions h a name k indexes = .ok h') (fits : (h.shapeOf a).length = k + indexes.length)
    (before : CoveredTo h a k) : Closes h a h' := by
  induction indexes generalizing h k with
  | nil =>
      cases ok
      exact ⟨closed_of_coveredTo before (by simp [fits]), fun _ _ => rfl, fun _ used => used⟩
  | cons i indexes ih =>
      simp only [indexDimensions] at ok
      cases first : indexDimension h a name k i with
      | error e => rw [first] at ok; cases ok
      | ok h₁ =>
          rw [first] at ok
          have settles := indexDimension_settles first
          refine Closes.after settles (ih ok ?_ (settles.coveredTo before))
          rw [settles.length, fits, List.length_cons]
          omega

theorem shareDimensions_closes {h h' : Heap} {a k : Nat} {rest : List Dimension}
    (ok : shareDimensions h a k rest = .ok h') (left : (h.shapeOf a).drop k = rest) (before : CoveredTo h a k) :
    Closes h a h' := by
  induction rest generalizing h k with
  | nil =>
      cases ok
      exact ⟨closed_of_coveredTo before (List.drop_eq_nil_iff.mp left), fun _ _ => rfl, fun _ used => used⟩
  | cons e rest ih =>
      have here : (h.shapeOf a)[k]? = some e := by
        rw [← Nat.add_zero k, ← List.getElem?_drop, left]
        rfl
      have left₁ : (h.shapeOf a).drop (k + 1) = rest := by rw [← List.drop_drop, left]; rfl
      simp only [shareDimensions] at ok
      split at ok
      · rename_i unshared
        refine ih ok left₁ fun j lt d mem => ?_
        rcases Nat.lt_succ_iff_lt_or_eq.mp lt with less | rfl
        · exact before j less d mem
        · obtain rfl := Option.some.inj (here.symm.trans mem)
          intro _ D points
          rw [unshared] at points
          cases points
      · rename_i D shared
        cases first : shareDimension h a k D with
        | error e => rw [first] at ok; cases ok
        | ok h₁ =>
            rw [first] at ok
            have settles := shareDimension_settles first fun d mem => by
              obtain rfl := Option.some.inj (here.symm.trans mem)
              exact shared
            have left₂ : (h₁.shapeOf a).drop (k + 1) = rest := by
              obtain ⟨d, -, shape, -⟩ := settles.at_
              rw [shape, List.drop_set_of_lt (Nat.lt_succ_self k), left₁]
            exact Closes.after settles (ih ok left₂ (settles.coveredTo before))

theorem mark_array_variable_closes {h h' : Heap} {a : Nat} {name : Name} {indexes : List Index}
    (ok : mark_array_variable h a name indexes = .ok h') : Closes h a h' := by
  have none : CoveredTo h a 0 := fun j lt => absurd lt (Nat.not_lt_zero j)
  unfold mark_array_variable at ok
  split at ok
  · exact shareDimensions_closes ok rfl none
  split at ok
  · cases ok
  · rename_i rank
    exact indexDimensions_closes ok (by omega) none

/-- What has been closed stays so, whatever is done next. -/
theorem closed_later {h h' : Heap} {action : Action} (ok : action.apply h = .ok h') {a : Nat} (closed : h.Closed a) :
    h'.Closed a := by
  cases action with
  | slice id dim i =>
      obtain ⟨s, at_, -, rfl⟩ := slice_dimension_ok ok
      intro d mem shares D points
      obtain ⟨s₁, at₁, flagged⟩ := closed d mem shares D points
      by_cases same : dim = D
      · subst same
        obtain rfl := Option.some.inj (at_.symm.trans at₁)
        exact ⟨s.sliceBy i, by simp [(List.getElem?_eq_some_iff.mp at_).1], flagged⟩
      · exact ⟨s₁, by simpa [same] using at₁, flagged⟩
  | mark b name indexes =>
      have closes := mark_array_variable_closes ok
      by_cases same : a = b
      · rw [same]
        exact closes.closed
      · intro d mem
        rw [closes.others a same] at mem
        exact (closed d mem).later closes.used
  | send ids =>
      cases ok
      exact closed

/-- The actions of an evaluation, one after the other. -/
inductive Runs : Heap → List Action → Heap → Prop where
  | nil (h : Heap) : Runs h [] h
  | cons {h h₁ h' : Heap} {action : Action} {actions : List Action} (first : action.apply h = .ok h₁)
      (rest : Runs h₁ actions h') : Runs h (action :: actions) h'

namespace Runs

theorem one {h h' : Heap} {action : Action} (ok : action.apply h = .ok h') : Runs h [action] h' := .cons ok (.nil h')

theorem append {h h₁ h' : Heap} {actions actions' : List Action} (first : Runs h actions h₁)
    (then_ : Runs h₁ actions' h') : Runs h (actions ++ actions') h' := by
  induction first with
  | nil => exact then_
  | cons ok _ ih => exact .cons ok (ih then_)

/-- It is the evaluation of these actions, with whatever has been asked for before. -/
theorem evaluate {h h' : Heap} {actions : List Action} (runs : Runs h actions h') (asked : Target → Option Request) :
    ∃ asked', Dap4.evaluate h asked actions = .ok (h', asked') := by
  induction runs generalizing asked with
  | nil h => exact ⟨asked, rfl⟩
  | @cons h h₁ h' action actions ok _ ih =>
      obtain ⟨asked', done⟩ := ih fun t => (action.asks h t).or (asked t)
      refine ⟨asked', ?_⟩
      rw [Dap4.evaluate, ok]
      exact done

theorem closed {h h' : Heap} {actions : List Action} (runs : Runs h actions h') {a : Nat} (closed : h.Closed a) :
    h'.Closed a := by
  induction runs with
  | nil => exact closed
  | cons ok _ ih => exact ih (closed_later ok closed)

/-- An array that has been marked is closed. -/
theorem marked {h h' : Heap} {actions : List Action} (runs : Runs h actions h') {a : Nat} {name : Name}
    {indexes : List Index} (mem : .mark a name indexes ∈ actions) : h'.Closed a := by
  induction runs with
  | nil => cases mem
  | cons ok rest ih =>
      rcases List.mem_cons.mp mem with rfl | mem
      · exact rest.closed (mark_array_variable_closes ok).closed
      · exact ih mem

end Runs

end Libdap.Dap4
