import Libdap.Dap4.SliceSpec

/-! # Valid slices

A constraint is a list of actions on the dataset. Every state that its
evaluation goes through has, in every place that was sliced, the slice that was
asked for last, and it is a slice of the dimension; provided that the actions
meet a condition which the evaluator does not check in full.
-/

namespace Libdap.Dap4

open Ints

namespace Heap

/-- Sizes are positive and fit their types, and every slice is one. -/
structure Good (h : Heap) : Prop where
  sizes : ∀ s ∈ h.dims, 1 ≤ s.size ∧ s.size < 2 ^ 64
  dims : ∀ s ∈ h.dims, s.constrained = true → s.slice.Consistent
  arrays : ∀ a, ∀ d ∈ h.shapeOf a, d.Sound

/-- The slice of the shared dimension, if it has one. -/
def shared (h : Heap) (d : Dimension) : Option Request :=
  (d.dim.bind (h.dims[·]?)).bind fun s => if s.constrained then some (.ofShared s) else none

/-- The values that an index, or none, asks for. -/
def request (h : Heap) (d : Dimension) : Option Index → Option Request
  | none => h.shared d
  | some i => if i.empty ∧ d.dim.isSome then h.shared d else some (.ofIndex d.size i)

/-- An index does not start behind its stop, and the slice of a shared dimension can be
    written with `int`s. -/
def MeetsAt (h : Heap) (d : Dimension) : Option Index → Prop
  | none => ∀ r ∈ h.shared d, r.stop < 2 ^ 31 ∧ r.stride < 2 ^ 31
  | some i =>
    if i.empty ∧ d.dim.isSome then ∀ r ∈ h.shared d, r.stop < 2 ^ 31 ∧ r.stride < 2 ^ 31
    else (i.start : Int) ≤ (Request.ofIndex d.size i).stop

instance (h : Heap) (d : Dimension) : (i : Option Index) → Decidable (h.MeetsAt d i)
  | none => inferInstanceAs (Decidable (∀ r ∈ h.shared d, r.stop < 2 ^ 31 ∧ r.stride < 2 ^ 31))
  | some i =>
    inferInstanceAs (Decidable
      (if i.empty ∧ d.dim.isSome then ∀ r ∈ h.shared d, r.stop < 2 ^ 31 ∧ r.stride < 2 ^ 31
      else (i.start : Int) ≤ (Request.ofIndex d.size i).stop))

end Heap

theorem shared_answers {h : Heap} (good : h.Good) {d d' : Dimension} (sound : d.Sound) {D : Nat}
    (points : d.dim = some D) (sharedBy : ∃ s, h.dims[D]? = some s ∧ d.SharedBy s d') :
    ((∀ r ∈ h.shared d, d'.Answers r) ↔ ∀ r ∈ h.shared d, r.stop < 2 ^ 31 ∧ r.stride < 2 ^ 31) ∧
      (h.shared d = none → d'.toDimension = d.toDimension) ∧ d'.size = d.size := by
  obtain ⟨s, there, sharedBy⟩ := sharedBy
  simp only [Heap.shared, points, Option.bind_some, there]
  cases constrained : s.constrained with
  | false =>
      simp only [Dimension.SharedBy, constrained, Bool.false_eq_true, if_false] at sharedBy
      simp [sharedBy]
  | true =>
      have valid := good.dims s (List.mem_of_getElem? there) constrained
      have answers := sharedBy_answers sound constrained valid sharedBy
      have size : d'.size = d.size := by
        simp only [Dimension.SharedBy, constrained, if_true] at sharedBy
        rw [sharedBy.2, Dap2.Dimension.constrain]
      refine ⟨?_, by simp, size⟩
      simp only [if_true, Option.mem_def, Option.some_inj, forall_eq', answers]
      simp only [Request.ofShared]
      omega

/-- What the index of one dimension makes of it is what it asks for, exactly when it
    meets its condition. -/
theorem becomes_answers {h : Heap} (good : h.Good) {d d' : Dimension} (sound : d.Sound) {i : Option Index}
    (becomes : d.Becomes h i d') :
    ((∀ r ∈ h.request d i, d'.Answers r) ↔ h.MeetsAt d i) ∧
      (h.request d i = none → d'.toDimension = d.toDimension) ∧ d'.size = d.size := by
  obtain ⟨-, -, rest⟩ := becomes
  cases i with
  | none =>
      simp only [Heap.request, Heap.MeetsAt]
      cases points : d.dim with
      | none =>
          simp only [points] at rest
          simp [Heap.shared, points, rest]
      | some D =>
          simp only [points] at rest
          exact shared_answers good sound points rest
  | some i =>
      have own : d.SlicedBy i d' →
          ((∀ r ∈ some (Request.ofIndex d.size i), d'.Answers r) ↔
            (i.start : Int) ≤ (Request.ofIndex d.size i).stop) ∧
          (some (Request.ofIndex d.size i) = none → d'.toDimension = d.toDimension) ∧ d'.size = d.size := by
        intro sliced
        refine ⟨?_, by simp, by rw [sliced.core, Dap2.Dimension.constrain]⟩
        simp only [Option.mem_def, Option.some_inj, forall_eq', slicedBy_answers sound sliced]
      simp only [Heap.request, Heap.MeetsAt]
      cases points : d.dim with
      | none =>
          simp only [points] at rest
          simpa using own rest
      | some D =>
          simp only [points] at rest
          cases empty : i.empty with
          | true =>
              rw [if_pos empty] at rest
              simpa using shared_answers good sound points rest
          | false =>
              rw [empty, if_neg Bool.false_ne_true] at rest
              simpa using own rest

/-- What a slice is asked for: a shared dimension, or a dimension of an array. -/
inductive Target where
  | shared (dim : Nat)
  | array (a k : Nat)
  deriving Repr, DecidableEq

/-- What the evaluator does to the dataset. -/
inductive Action where
  | slice (id : Name) (dim : Nat) (i : Index)
  | mark (a : Nat) (name : Name) (indexes : List Index)
  | send (ids : List Nat)
  deriving Repr, DecidableEq

namespace Action

def apply (h : Heap) : Action → Except String Heap
  | slice id dim i => slice_dimension h id dim i
  | mark a name indexes => mark_array_variable h a name indexes
  | send ids => pure { h with sendP := ids ++ h.sendP }

/-- The values that are asked for, and of what. -/
def asks (h : Heap) : Action → Target → Option Request
  | slice _ dim i, .shared d => if d = dim then h.dims[dim]?.map fun s => .ofIndex s.size i else none
  | mark a _ indexes, .array b k =>
    if b = a then (h.shapeOf a)[k]?.bind fun d => h.request d indexes[k]? else none
  | _, _ => none

/-- The condition on an action, in the state before it. -/
def Meets (h : Heap) : Action → Prop
  | slice _ dim i => ∀ s ∈ h.dims[dim]?, 1 ≤ i.stride ∧ (i.start : Int) ≤ (Request.ofIndex s.size i).stop
  | mark a _ indexes => ∀ k : Nat, ∀ d ∈ (h.shapeOf a)[k]?, h.MeetsAt d indexes[k]?
  | send _ => True

end Action

/-- The target has the slice it was asked for last. -/
def Heap.Has (h : Heap) (r : Request) : Target → Prop
  | .shared dim => ∃ s ∈ h.dims[dim]?, s.constrained = true ∧ Request.ofShared s = r
  | .array a k => ∃ d ∈ (h.shapeOf a)[k]?, d.Answers r

structure Heap.Right (h : Heap) (asked : Target → Option Request) : Prop where
  good : h.Good
  has : ∀ t, ∀ r ∈ asked t, h.Has r t

theorem sameDims_good {h h' : Heap} (good : h.Good) (same : h.SameDims h') :
    (∀ s ∈ h'.dims, 1 ≤ s.size ∧ s.size < 2 ^ 64) ∧
      (∀ s ∈ h'.dims, s.constrained = true → s.slice.Consistent) := by
  have old : ∀ s' ∈ h'.dims, ∃ s ∈ h.dims, s'.toD4Dimension = s.toD4Dimension := by
    intro s' mem
    obtain ⟨D, found⟩ := List.getElem?_of_mem mem
    obtain ⟨s, there, eq, -⟩ := same.at found
    exact ⟨s, List.mem_of_getElem? there, eq⟩
  constructor
  · intro s' mem
    obtain ⟨s, there, eq⟩ := old s' mem
    rw [eq]
    exact good.sizes s there
  · intro s' mem constrained
    obtain ⟨s, there, eq⟩ := old s' mem
    rw [eq] at constrained
    have consistent := good.dims s there constrained
    simp only [D4Dimension.slice, D4Dimension.printedSize, eq] at consistent ⊢
    exact consistent

theorem SameDims.symm_at {h h' : Heap} (same : h.SameDims h') {D : Nat} {s : D4Dimension}
    (found : h.dims[D]? = some s) :
    ∃ s', h'.dims[D]? = some s' ∧ s'.toD4Dimension = s.toD4Dimension := by
  obtain ⟨s', there, eq, -⟩ := @Heap.SameDims.at h' h (Eq.symm same) _ _ found
  exact ⟨s', there, eq.symm⟩

theorem marks_right {h h' : Heap} {asked : Target → Option Request} (right : h.Right asked) {a : Nat}
    {name : Name} {indexes : List Index} (marks : Marks h a (fun k => indexes[k]?) h') :
    h'.Right (fun t => ((Action.mark a name indexes).asks h t).or (asked t)) ↔
      (Action.mark a name indexes).Meets h := by
  obtain ⟨at_, length, others, dims⟩ := marks
  have good := right.good
  have here : ∀ k : Nat, ∀ d ∈ (h.shapeOf a)[k]?, d.Sound := fun k d mem =>
    good.arrays a d (List.mem_of_getElem? mem)
  constructor
  · intro after k d mem
    obtain ⟨d', mem', becomes⟩ := at_ k d mem
    rw [← (becomes_answers good (here k d mem) becomes).1]
    intro r asks
    obtain ⟨e, there, answers⟩ := after.has (.array a k) r (by
      have found : (h.shapeOf a)[k]? = some d := mem
      have wants : h.request d indexes[k]? = some r := asks
      simp [Action.asks, found, wants])
    obtain rfl := Option.some.inj (mem'.symm.trans there)
    exact answers
  · intro meets
    have sound : ∀ b, ∀ d' ∈ h'.shapeOf b, d'.Sound := by
      intro b d' mem'
      by_cases same : b = a
      · subst same
        obtain ⟨k, bound, rfl⟩ := List.mem_iff_getElem.mp mem'
        have mem : (h.shapeOf b)[k]? = some (h.shapeOf b)[k] := List.getElem?_eq_getElem (by omega)
        obtain ⟨d₁, there, becomes⟩ := at_ k _ mem
        rw [Option.mem_def, List.getElem?_eq_getElem bound, Option.some_inj] at there
        obtain ⟨answers, untouched, size⟩ := becomes_answers good (here k _ mem) becomes
        rw [there]
        have old := here k _ mem
        refine ⟨size ▸ old.small, fun pos => ?_⟩
        cases asks : h.request (h.shapeOf b)[k] indexes[k]? with
        | none =>
            rw [untouched asks]
            exact old.consistent (size ▸ pos)
        | some r => exact (answers.mpr (meets k _ mem) r asks).consistent
      · rw [others b same] at mem'
        exact good.arrays b d' mem'
    obtain ⟨sizes, slices⟩ := sameDims_good good dims
    refine ⟨⟨sizes, slices, sound⟩, ?_⟩
    intro t r mem
    cases t with
    | shared D =>
        have before : r ∈ asked (.shared D) := by simpa [Action.asks] using mem
        obtain ⟨s, there, constrained, same⟩ := right.has _ r before
        obtain ⟨s', there', eq⟩ := SameDims.symm_at dims there
        refine ⟨s', there', by rw [eq]; exact constrained, ?_⟩
        rw [← same, Request.ofShared, Request.ofShared, eq]
    | array b k =>
        by_cases same : b = a
        · subst same
          cases found : (h.shapeOf b)[k]? with
          | none =>
              have before : r ∈ asked (.array b k) := by simpa [Action.asks, found] using mem
              obtain ⟨d, there, -⟩ := right.has _ r before
              rw [found] at there
              cases there
          | some d =>
              obtain ⟨d', mem', becomes⟩ := at_ k d found
              obtain ⟨answers, untouched, -⟩ := becomes_answers good (here k d found) becomes
              refine ⟨d', mem', ?_⟩
              cases asks : h.request d indexes[k]? with
              | none =>
                  have before : r ∈ asked (.array b k) := by simpa [Action.asks, found, asks] using mem
                  obtain ⟨e, there, held⟩ := right.has _ r before
                  obtain rfl := Option.some.inj (found.symm.trans there)
                  have core := untouched asks
                  exact ⟨core ▸ held.start, core ▸ held.stride, core ▸ held.stop, core ▸ held.consistent⟩
              | some r' =>
                  have now : r' = r := by simpa [Action.asks, found, asks] using mem
                  exact now ▸ answers.mpr (meets k d found) r' asks
        · have before : r ∈ asked (.array b k) := by simpa [Action.asks, same] using mem
          obtain ⟨d, there, held⟩ := right.has _ r before
          exact ⟨d, by rw [others b same]; exact there, held⟩

theorem printedSize_eq {s : D4Dimension} (constrained : s.constrained = true) (ordered : s.cStart ≤ s.cStop)
    (inside : s.cStop < s.size) (fits : s.size < 2 ^ 64) :
    (s.printedSize : Int) = ((s.cStop : Int) - s.cStart) / s.cStride + 1 := by
  have difference : u64 ((s.cStop : Int) - s.cStart) = s.cStop - s.cStart := by
    rw [← Int.ofNat_sub ordered]
    exact u64_ofNat (by omega)
  have quotient : (s.cStop - s.cStart) / s.cStride ≤ s.cStop - s.cStart := Nat.div_le_self _ _
  have count : u64 (((s.cStop - s.cStart) / s.cStride : Nat) + 1) = (s.cStop - s.cStart) / s.cStride + 1 :=
    u64_ofNat (n := (s.cStop - s.cStart) / s.cStride + 1) (by omega)
  rw [D4Dimension.printedSize, if_pos constrained, difference, count, ← Int.ofNat_sub ordered]
  rfl

theorem slice_consistent {s : D4Dimension} (constrained : s.constrained = true) (inside : s.cStop < s.size)
    (fits : s.size < 2 ^ 64) : s.slice.Consistent ↔ 1 ≤ s.cStride ∧ s.cStart ≤ s.cStop := by
  constructor
  · intro consistent
    exact ⟨Int.ofNat_le.mp consistent.valid.step, Int.ofNat_le.mp consistent.valid.ordered⟩
  · rintro ⟨step, ordered⟩
    have step' : 1 ≤ s.slice.stride := Int.ofNat_le.mpr step
    have ordered' : s.slice.start ≤ s.slice.stop := Int.ofNat_le.mpr ordered
    refine ⟨⟨Int.natCast_nonneg _, ordered', Int.ofNat_lt.mpr inside, step'⟩, ?_⟩
    rw [Dap2.Dimension.ncard_selected ordered' step']
    exact printedSize_eq constrained ordered inside fits

/-- What an index makes of a shared dimension. -/
def D4Dimension.sliceBy (s : D4Dimension) (i : Index) : D4Dimension :=
  s.set_constraint i.start i.stride (if i.rest then u64 (s.size - 1) else i.stop)

theorem slice_dimension_ok {h h' : Heap} {id : Name} {dim : Nat} {i : Index}
    (ok : slice_dimension h id dim i = .ok h') :
    ∃ s, h.dims[dim]? = some s ∧ (i.rest = false → i.stop ≤ u64 (s.size - 1)) ∧
      h' = { h with dims := h.dims.set dim (s.sliceBy i) } := by
  unfold slice_dimension at ok
  split at ok
  · cases ok
  rename_i s found
  split at ok
  · cases ok
  split at ok
  · cases ok
  rename_i stop
  refine ⟨s, found, ?_, (Except.ok.inj ok).symm⟩
  intro rest
  simpa [rest] using stop

theorem slice_right {h h' : Heap} {asked : Target → Option Request} (right : h.Right asked) {id : Name}
    {dim : Nat} {i : Index} (ok : slice_dimension h id dim i = .ok h') :
    h'.Right (fun t => ((Action.slice id dim i).asks h t).or (asked t)) ↔
      (Action.slice id dim i).Meets h := by
  obtain ⟨s, found, stopLe, rfl⟩ := slice_dimension_ok ok
  have good := right.good
  have bound := (List.getElem?_eq_some_iff.mp found).1
  obtain ⟨pos, fits⟩ := good.sizes s (List.mem_of_getElem? found)
  have last : u64 (s.size - 1) = s.size - 1 := by
    rw [← Int.ofNat_one, ← Int.ofNat_sub pos]
    exact u64_ofNat (by omega)
  let s' := s.sliceBy i
  have stop : (s'.cStop : Int) = (Request.ofIndex s.size i).stop := by
    simp only [s', D4Dimension.sliceBy, D4Dimension.set_constraint, Request.ofIndex]
    cases rest : i.rest with
    | true => rw [if_pos rfl, if_pos rfl, last]; omega
    | false => simp
  have inside : s'.cStop < s'.size := by
    simp only [s', D4Dimension.sliceBy, D4Dimension.set_constraint]
    cases rest : i.rest with
    | true => rw [if_pos rfl, last]; omega
    | false => have le := stopLe rest; rw [last] at le; rw [if_neg Bool.false_ne_true]; omega
  have valid : s'.slice.Consistent ↔ (Action.slice id dim i).Meets h := by
    rw [slice_consistent rfl inside fits, ← Int.ofNat_le (m := s'.cStart), stop]
    simp only [Action.Meets, found, Option.mem_def, Option.some_inj, forall_eq']
    rfl
  have now : Request.ofShared s' = .ofIndex s.size i := by
    rw [Request.ofShared, stop]
    rfl
  rw [← valid]
  constructor
  · intro after
    exact after.good.dims s' (List.mem_set bound _) rfl
  · intro consistent
    have dims : ∀ e ∈ h.dims.set dim s', e = s' ∨ e ∈ h.dims := fun e mem =>
      (List.mem_or_eq_of_mem_set mem).symm
    refine ⟨⟨?_, ?_, good.arrays⟩, ?_⟩
    · intro e mem
      rcases dims e mem with rfl | old
      · exact ⟨pos, fits⟩
      · exact good.sizes e old
    · intro e mem constrained
      rcases dims e mem with rfl | old
      · exact consistent
      · exact good.dims e old constrained
    · intro t r mem
      cases t with
      | shared D =>
          by_cases same : D = dim
          · subst same
            have wants : Request.ofIndex s.size i = r := by simpa [Action.asks, found] using mem
            exact ⟨s', List.getElem?_set_self bound, rfl, now.trans wants⟩
          · have before : r ∈ asked (.shared D) := by simpa [Action.asks, same] using mem
            obtain ⟨e, there, held⟩ := right.has _ r before
            exact ⟨e, (List.getElem?_set_ne (Ne.symm same)).trans there, held⟩
      | array a k =>
          have before : r ∈ asked (.array a k) := by simpa [Action.asks] using mem
          exact right.has _ r before

/-- One action leaves every slice right exactly when it meets its condition. -/
theorem apply_right {h h' : Heap} {asked : Target → Option Request} (right : h.Right asked) {action : Action}
    (ok : action.apply h = .ok h') :
    h'.Right (fun t => (action.asks h t).or (asked t)) ↔ action.Meets h := by
  cases action with
  | slice id dim i => exact slice_right right ok
  | mark a name indexes => exact marks_right right (mark_array_variable_ok ok)
  | send ids =>
      cases ok
      have same : (fun t => ((Action.send ids).asks h t).or (asked t)) = asked := by
        funext t
        simp [Action.asks]
      rw [same]
      exact ⟨fun _ => trivial, fun _ => ⟨⟨right.good.sizes, right.good.dims, right.good.arrays⟩, right.has⟩⟩

/-- The evaluation of a constraint, up to the first error. What was asked for last is
    carried along with the dataset. -/
def evaluate (h : Heap) (asked : Target → Option Request) :
    List Action → Except String (Heap × (Target → Option Request))
  | [] => pure (h, asked)
  | action :: actions => do
    let h' ← action.apply h
    evaluate h' (fun t => (action.asks h t).or (asked t)) actions

/-- Every action that is done meets its condition. -/
def Heap.AllMeet (h : Heap) : List Action → Prop
  | [] => True
  | action :: actions => ∀ h', action.apply h = .ok h' → action.Meets h ∧ h'.AllMeet actions

theorem evaluate_cons {h h' : Heap} {asked asked' : Target → Option Request} {action : Action}
    {actions : List Action} (ok : evaluate h asked (action :: actions) = .ok (h', asked')) :
    ∃ h₁, action.apply h = .ok h₁ ∧
      evaluate h₁ (fun t => (action.asks h t).or (asked t)) actions = .ok (h', asked') := by
  simp only [evaluate] at ok
  cases first : action.apply h with
  | error e => rw [first] at ok; cases ok
  | ok h₁ =>
      rw [first] at ok
      exact ⟨h₁, rfl, ok⟩

theorem evaluate_right {h : Heap} {asked : Target → Option Request} (right : h.Right asked)
    (actions : List Action) :
    (∀ done, done <+: actions → ∀ h' asked', evaluate h asked done = .ok (h', asked') → h'.Right asked') ↔
      h.AllMeet actions := by
  induction actions generalizing h asked with
  | nil =>
      refine iff_of_true ?_ trivial
      intro done start h' asked' ok
      rw [List.prefix_nil.mp start] at ok
      cases ok
      exact right
  | cons action actions ih =>
      constructor
      · intro all h₁ first
        have one : evaluate h asked [action] =
            .ok (h₁, fun t => (action.asks h t).or (asked t)) := by
          simp only [evaluate, first]
          rfl
        have right₁ := all [action] (List.prefix_append [action] actions) _ _ one
        refine ⟨(apply_right right first).mp right₁, (ih right₁).mp ?_⟩
        intro done start h' asked' ok
        apply all (action :: done) ((List.prefix_cons_inj action).mpr start)
        simp only [evaluate, first]
        exact ok
      · intro meets done start h' asked' ok
        cases done with
        | nil => cases ok; exact right
        | cons action' done =>
            obtain ⟨rfl, within⟩ := List.cons_prefix_cons.mp start
            obtain ⟨h₁, first, ok⟩ := evaluate_cons ok
            obtain ⟨now, later⟩ := meets h₁ first
            exact (ih ((apply_right right first).mpr now)).mpr later done within h' asked' ok

/-- Starting with a dataset whose slices are right, those of every state an accepted
    constraint goes through are, exactly when each of its actions meets its condition. -/
theorem slices_right_iff {h : Heap} (good : h.Good) (actions : List Action) :
    (∀ done, done <+: actions → ∀ h' asked, evaluate h (fun _ => none) done = .ok (h', asked) →
      h'.Right asked) ↔ h.AllMeet actions :=
  evaluate_right ⟨good, fun _ _ mem => absurd mem (Option.not_mem_none _)⟩ actions

/-- A dataset as it is declared: no constraint has been applied to it. -/
structure Heap.Declared (h : Heap) : Prop where
  dims : ∀ s ∈ h.dims, 1 ≤ s.size ∧ s.size < 2 ^ 64 ∧ s.constrained = false
  arrays : ∀ a, ∀ d ∈ h.shapeOf a, (∃ size name, 1 ≤ size ∧ size < 2 ^ 31 ∧ d = .ofSize size name) ∨
    ∃ address s, d = .ofD4 address s

theorem whole_sound {d : Dimension} {size : Int} (fits : size < 2 ^ 31)
    (whole : d.toDimension = .ofSize size) : d.Sound := by
  have same : d.size = size := by rw [whole]; rfl
  refine ⟨same ▸ fits, fun pos => ?_⟩
  exact Dap2.Dimension.whole_consistent pos (same ▸ fits) (by rw [whole]; rfl) (by rw [whole]; rfl)
    (by rw [whole]; rfl) (by rw [whole]; rfl)

theorem Heap.Declared.good {h : Heap} (declared : h.Declared) : h.Good := by
  refine ⟨fun s mem => ⟨(declared.dims s mem).1, (declared.dims s mem).2.1⟩, ?_, ?_⟩
  · intro s mem constrained
    rw [(declared.dims s mem).2.2] at constrained
    exact absurd constrained Bool.false_ne_true
  · intro a d mem
    rcases declared.arrays a d mem with ⟨size, name, -, fits, rfl⟩ | ⟨address, s, rfl⟩
    · exact whole_sound fits rfl
    · exact whole_sound (i32_fits s.size).2 rfl

/-- A shared dimension of ten elements, and an array of it and five more. -/
def tenByFive : Heap :=
  { dims := [.declared ['x'] 10]
    arrays := [⟨[.ofD4 0 (.declared ['x'] 10), .ofSize 5 ['y']], 50, []⟩]
    sendP := [] }

theorem tenByFive_declared : tenByFive.Declared := by
  refine ⟨by simp [tenByFive, D4Dimension.declared], ?_⟩
  intro a d mem
  cases a with
  | zero =>
      simp only [tenByFive, Heap.shapeOf, List.getElem?_cons_zero, Option.map_some, Option.getD_some,
        List.mem_cons, List.not_mem_nil, or_false] at mem
      rcases mem with rfl | rfl
      · exact .inr ⟨0, _, rfl⟩
      · exact .inl ⟨5, ['y'], by decide, by decide, rfl⟩
  | succ a => simp [tenByFive, Heap.shapeOf] at mem

/-- `/x=[2:3:8];/a[][1:4]`. -/
def threeAndFour : List Action :=
  [.slice ['/', 'x'] 0 ⟨2, 3, 8, false, false⟩,
    .mark 0 ['a'] [⟨0, 1, 0, true, true⟩, ⟨1, 1, 4, false, false⟩]]

theorem threeAndFour_meet : tenByFive.AllMeet threeAndFour := by
  intro h₁ first
  have sliced : (Action.slice ['/', 'x'] 0 ⟨2, 3, 8, false, false⟩).apply tenByFive =
      .ok { tenByFive with dims := [⟨⟨10, true, 2, 3, 8⟩, ['x'], false⟩] } := rfl
  obtain rfl := Except.ok.inj (sliced.symm.trans first)
  refine ⟨?_, fun h₂ _ => ⟨?_, trivial⟩⟩
  · intro s mem
    obtain rfl := Option.some.inj mem
    decide
  · intro k d mem
    rcases k with _ | _ | k
    · obtain rfl := Option.some.inj mem
      decide
    · obtain rfl := Option.some.inj mem
      decide
    · cases mem

theorem threeAndFour_right :
    ∃ h' asked, evaluate tenByFive (fun _ => none) threeAndFour = .ok (h', asked) ∧ h'.Right asked := by
  have right := (slices_right_iff tenByFive_declared.good threeAndFour).mpr threeAndFour_meet
    threeAndFour List.prefix_rfl
  exact ⟨_, _, rfl, right _ _ rfl⟩

/-- A start behind the stop is let through. -/
theorem invalid_slices :
    ¬∀ h : Heap, h.Declared → ∀ actions h' asked, evaluate h (fun _ => none) actions = .ok (h', asked) →
      h'.Right asked := by
  intro claim
  have right := claim tenByFive tenByFive_declared [.mark 0 ['a'] [⟨5, 1, 2, false, false⟩, ⟨0, 1, 0, true, true⟩]]
    _ _ rfl
  obtain ⟨d, found, answers⟩ := right.has (.array 0 0) ⟨5, 1, 2⟩ rfl
  have ordered := answers.consistent.valid.ordered
  rw [answers.start, answers.stop] at ordered
  exact absurd ordered (by decide)

-- A start that an `int` takes for 0, and a stride of 0, are let through as well.
example : (mark_array_variable tenByFive 0 ['a'] [⟨2 ^ 32, 1, 3, false, false⟩, ⟨0, 1, 0, true, true⟩]).toOption.map
    (fun h => (h.shapeOf 0).map Dimension.toDimension) = some [⟨10, 0, 3, 1, 4⟩, ⟨5, 0, 4, 1, 5⟩] := by decide

example : (slice_dimension tenByFive ['/', 'x'] 0 ⟨0, 0, 9, false, false⟩).toOption.map Heap.dims =
    some [⟨⟨10, true, 0, 0, 9⟩, ['x'], false⟩] := by decide

end Libdap.Dap4
