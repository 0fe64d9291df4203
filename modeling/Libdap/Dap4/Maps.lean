import Libdap.Dap4.SliceSpec
import Libdap.Foundation.Crossing

/-! # Maps of sliced dimensions

A dimension that gets a slice of its own takes one map with it, the first whose
source has a dimension of the same name. The maps that are left are those whose
source uses no dimension that was sliced, exactly when every map goes with a
dimension as it should.
-/

namespace Libdap.Dap4

namespace Heap

def mapsOf (h : Heap) (a : Nat) : List D4Map := (h.arrays[a]?.map Array.maps).getD []

/-- The test of the loop over the maps. -/
def suits (h : Heap) (dim : Nat) (m : D4Map) : Bool :=
  h.dims[dim]?.any fun s => m.array.any fun source => array_uses_shared_dimension (h.shapeOf source) s

/-- The source of the map has one of the shared dimensions. -/
def Uses (h : Heap) (dims : List Nat) (m : D4Map) : Prop :=
  ∃ source ∈ m.array, ∃ d ∈ h.shapeOf source, ∃ dim ∈ d.dim, dim ∈ dims

instance (h : Heap) (dims : List Nat) (m : D4Map) : Decidable (h.Uses dims m) :=
  inferInstanceAs (Decidable (∃ source ∈ m.array, ∃ d ∈ h.shapeOf source, ∃ dim ∈ d.dim, dim ∈ dims))

end Heap

/-- The shared dimension that a local slice is placed on. -/
def localDim (d : Dimension) (i : Index) : List Nat := if i.empty then [] else d.dim.toList

/-- The shared dimensions that the indexes place a local slice on. -/
def localDims (shape : List Dimension) (indexes : List Index) : List Nat :=
  (List.zipWith localDim shape indexes).flatten

/-- What the test on a map looks at stays the same. -/
structure SameNames (h h' : Heap) : Prop where
  names : ∀ b, (h'.shapeOf b).map Dimension.name = (h.shapeOf b).map Dimension.name
  dims : h.SameDims h'

theorem array_uses_congr {map map' : List Dimension} {s s' : D4Dimension} (name : s'.name = s.name)
    (same : map'.map Dimension.name = map.map Dimension.name) :
    array_uses_shared_dimension map' s' = array_uses_shared_dimension map s := by
  have named : ∀ (map : List Dimension) (s : D4Dimension), array_uses_shared_dimension map s =
      (map.map Dimension.name).any fun n => decide (s.name = n) := by
    intro map s
    rw [List.any_map]
    rfl
  rw [named, named, name, same]

theorem SameNames.suits {h h' : Heap} (same : SameNames h h') : h'.suits = h.suits := by
  funext dim m
  simp only [Heap.suits]
  cases found' : h'.dims[dim]? with
  | none =>
      have none : h.dims[dim]? = none := by
        have length := congrArg List.length same.dims
        simp only [List.length_map] at length
        rw [List.getElem?_eq_none_iff] at found' ⊢
        omega
      rw [none]
      rfl
  | some s' =>
      obtain ⟨s, found, -, name⟩ := same.dims.at found'
      rw [found]
      cases m.array with
      | none => rfl
      | some source => exact array_uses_congr name (same.names source)

theorem Changes.sameNames {h h' : Heap} {a k : Nat} {i : Option Index} (changes : Changes h a k i h') :
    SameNames h h' := by
  obtain ⟨⟨d, d', found, ⟨-, name, -⟩, shape⟩, others, dims⟩ := changes
  refine ⟨fun b => ?_, dims⟩
  by_cases same : b = a
  · subst same
    obtain ⟨bound, rfl⟩ := List.getElem?_eq_some_iff.mp found
    have mapped : k < ((h.shapeOf b).map Dimension.name).length := by simpa using bound
    have there : ((h.shapeOf b).map Dimension.name)[k] = (h.shapeOf b)[k].name := by simp
    rw [shape, List.map_set, name, ← there, List.set_getElem_self]
  · rw [others b same]

theorem mapToBeRemoved_ok {h : Heap} {dim : Option D4Dimension} {maps : List D4Map} {m? : Option D4Map}
    (ok : mapToBeRemoved h dim maps = .ok m?) :
    let test := fun m : D4Map => dim.any fun s => m.array.any fun source =>
      array_uses_shared_dimension (h.shapeOf source) s
    match m? with
    | none => maps.eraseP test = maps
    | some m => test m = true ∧ maps.eraseP test = maps.erase m := by
  intro test
  induction maps with
  | nil => cases ok; rfl
  | cons m maps ih =>
      simp only [mapToBeRemoved] at ok
      split at ok
      · cases ok
      rename_i source points
      have tested : test m = dim.any (array_uses_shared_dimension (h.shapeOf source)) := by
        simp only [test, points, Option.any_some]
      split at ok
      · rename_i found
        rw [← tested] at found
        cases ok
        exact ⟨found, by rw [List.eraseP_cons_of_pos found, List.erase_cons_head]⟩
      · rename_i missed
        rw [← tested, Bool.not_eq_true] at missed
        have later := ih ok
        have skip : (m :: maps).eraseP test = m :: maps.eraseP test :=
          List.eraseP_cons_of_neg (Bool.not_eq_true _ ▸ missed)
        cases m? with
        | none => exact skip.trans (congrArg (m :: ·) later)
        | some m' =>
            obtain ⟨found, rest⟩ := later
            have other : m ≠ m' := by
              rintro rfl
              exact absurd (missed.symm.trans found) Bool.false_ne_true
            refine ⟨found, ?_⟩
            rw [skip, rest, List.erase_cons_tail (by simpa using other)]

theorem dropMap_maps {h : Heap} {dim : Option Nat} {a a' : Array}
    (ok : dropMap h (dim.bind (h.dims[·]?)) a = .ok a') :
    a'.maps = crossOut h.suits dim.toList a.maps := by
  have test : (fun m : D4Map => (dim.bind (h.dims[·]?)).any fun s => m.array.any fun source =>
      array_uses_shared_dimension (h.shapeOf source) s) = fun m => dim.any fun D => h.suits D m := by
    funext m
    cases dim <;> rfl
  have left : crossOut h.suits dim.toList a.maps = a.maps.eraseP fun m => dim.any fun D => h.suits D m := by
    cases dim with
    | none => simp [crossOut, List.eraseP_of_forall_not]
    | some D => rfl
  unfold dropMap at ok
  cases found : mapToBeRemoved h (dim.bind (h.dims[·]?)) a.maps with
  | error e => rw [found] at ok; cases ok
  | ok m? =>
      rw [found] at ok
      have removed := mapToBeRemoved_ok found
      simp only [test, ← left] at removed
      cases m? with
      | none => cases ok; exact removed.symm
      | some m => cases ok; exact removed.2.symm

theorem mapsOf_setArray {h : Heap} {a : Nat} (bound : a < h.arrays.length) (array : Array) :
    (h.setArray a array).mapsOf a = array.maps := by
  simp [Heap.mapsOf, Heap.setArray, bound]

theorem shareDimension_maps {h h' : Heap} {a k D : Nat} (ok : shareDimension h a k D = .ok h') :
    h'.mapsOf a = h.mapsOf a := by
  unfold shareDimension at ok
  split at ok
  · rename_i array shared there found
    cases changed : array.add_d4_constraint k shared with
    | error e => rw [changed] at ok; cases ok
    | ok array' =>
        rw [changed] at ok
        cases ok
        obtain ⟨-, -, -, -, -, -, -, -, maps⟩ := add_d4_constraint_ok changed
        have bound := (List.getElem?_eq_some_iff.mp there).1
        have before : h.mapsOf a = array.maps := by simp [Heap.mapsOf, there]
        exact (mapsOf_setArray bound array').trans (maps.trans before.symm)
  · cases ok

theorem sliceLocally_maps {h h' : Heap} {a k : Nat} {i : Index} (ok : sliceLocally h a k i = .ok h') :
    h'.mapsOf a = crossOut h.suits (((h.shapeOf a)[k]?.bind Dimension.dim).toList) (h.mapsOf a) := by
  unfold sliceLocally at ok
  split at ok
  · cases ok
  rename_i array there
  cases sliced : array.add_constraint k (Ints.i32 i.start) (Ints.i32 i.stride)
      (if i.rest then -1 else Ints.i32 i.stop) with
  | error e => simp only [sliced] at ok; cases ok
  | ok b =>
      simp only [sliced, bind, Except.bind] at ok
      split at ok
      · cases ok
      · rename_i b' dropped
        cases ok
        obtain ⟨-, -, -, -, maps⟩ := add_constraint_ok sliced
        have bound := (List.getElem?_eq_some_iff.mp there).1
        have before : h.mapsOf a = array.maps := by simp [Heap.mapsOf, there]
        rw [mapsOf_setArray bound, dropMap_maps dropped, maps, before, shapeOf_eq there]

theorem indexDimension_maps {h h' : Heap} {a k : Nat} {name : Name} {i : Index} {d : Dimension}
    (found : (h.shapeOf a)[k]? = some d) (ok : indexDimension h a name k i = .ok h') :
    h'.mapsOf a = crossOut h.suits (localDim d i) (h.mapsOf a) := by
  have points : (h.shapeOf a)[k]?.bind Dimension.dim = d.dim := by rw [found, Option.bind_some]
  unfold indexDimension at ok
  rw [found] at ok
  simp only at ok
  split at ok
  · cases ok
  split at ok
  · cases ok
  cases shared : d.dim with
  | none =>
      rw [shared] at ok
      have maps := sliceLocally_maps ok
      rw [points, shared] at maps
      rw [maps, localDim, shared, Option.toList_none, ite_self]
  | some D =>
      rw [shared] at ok
      cases empty : i.empty with
      | true =>
          simp only [empty, if_true] at ok
          rw [shareDimension_maps ok, localDim, if_pos empty]
          rfl
      | false =>
          simp only [empty, Bool.false_eq_true, if_false] at ok
          rw [sliceLocally_maps ok, points, localDim, empty, if_neg Bool.false_ne_true]

theorem indexDimensions_maps {h h' : Heap} {a k : Nat} {name : Name} {indexes : List Index}
    (ok : indexDimensions h a name k indexes = .ok h') :
    h'.mapsOf a = crossOut h.suits (localDims ((h.shapeOf a).drop k) indexes) (h.mapsOf a) := by
  induction indexes generalizing h k with
  | nil =>
      cases ok
      simp [localDims, crossOut]
  | cons i indexes ih =>
      simp only [indexDimensions] at ok
      cases first : indexDimension h a name k i with
      | error e => rw [first] at ok; cases ok
      | ok h₁ =>
          rw [first] at ok
          have changes := indexDimension_ok first
          obtain ⟨d, d', found, becomes, shape⟩ := changes.at_
          obtain ⟨bound, rfl⟩ := List.getElem?_eq_some_iff.mp found
          have rest : (h₁.shapeOf a).drop (k + 1) = (h.shapeOf a).drop (k + 1) := by
            rw [shape, List.drop_set_of_lt (Nat.lt_succ_self k)]
          rw [ih ok, indexDimension_maps found first, changes.sameNames.suits, rest,
            List.drop_eq_getElem_cons bound, localDims, localDims, List.zipWith_cons_cons, List.flatten_cons,
            crossOut, crossOut, crossOut, List.foldl_append]

theorem shareDimensions_maps {h h' : Heap} {a k : Nat} {rest : List Dimension}
    (ok : shareDimensions h a k rest = .ok h') : h'.mapsOf a = h.mapsOf a := by
  induction rest generalizing h k with
  | nil => cases ok; rfl
  | cons d rest ih =>
      simp only [shareDimensions] at ok
      split at ok
      · exact ih ok
      · rename_i D shared
        cases first : shareDimension h a k D with
        | error e => rw [first] at ok; cases ok
        | ok h₁ =>
            rw [first] at ok
            exact (ih ok).trans (shareDimension_maps first)

/-- Each local slice crosses out one map. -/
theorem mark_array_variable_maps {h h' : Heap} {a : Nat} {name : Name} {indexes : List Index}
    (ok : mark_array_variable h a name indexes = .ok h') :
    h'.mapsOf a = crossOut h.suits (localDims (h.shapeOf a) indexes) (h.mapsOf a) := by
  unfold mark_array_variable at ok
  split at ok
  · rename_i none
    rw [shareDimensions_maps ok, none, localDims, List.zipWith_nil_right]
    rfl
  split at ok
  · cases ok
  · exact indexDimensions_maps ok

/-- Exactly the maps are left whose source uses no dimension with a local slice, if and only
    if each map in turn goes to a local slice when its source uses one of those dimensions:
    to the first that has the name of a dimension of the source, and no map before it. -/
theorem maps_dropped_iff {h h' : Heap} {a : Nat} {name : Name} {indexes : List Index}
    (ok : mark_array_variable h a name indexes = .ok h') :
    h'.mapsOf a = (h.mapsOf a).filter (fun m => ¬h.Uses (localDims (h.shapeOf a) indexes) m) ↔
      GoesTo h.suits (h.Uses (localDims (h.shapeOf a) indexes)) (localDims (h.shapeOf a) indexes)
        (h.mapsOf a) := by
  rw [mark_array_variable_maps ok]
  exact crossOut_eq_filter_iff _ _ _

/-- An array over `x` and `y` with two maps, whose sources are over some of the two. -/
def coverage (lat lon : List Nat) : Heap :=
  let x := D4Dimension.declared ['x'] 10
  let y := D4Dimension.declared ['y'] 5
  let source := fun dims : List Nat => dims.map fun D => Dimension.ofD4 D (if D = 0 then x else y)
  { dims := [x, y]
    arrays := [⟨source [0, 1], 50, [⟨['l', 'a', 't'], some 1⟩, ⟨['l', 'o', 'n'], some 2⟩]⟩,
      ⟨source lat, 10, []⟩, ⟨source lon, 5, []⟩]
    sendP := [] }

/-- `[2:4][]`. -/
def firstLocally : List Index := [⟨2, 1, 4, false, false⟩, ⟨0, 1, 0, true, true⟩]

/-- A map over each dimension: the one over the sliced dimension is dropped. -/
theorem oneMap_dropped : ∃ h', mark_array_variable (coverage [0] [1]) 0 ['a'] firstLocally = .ok h' ∧
    h'.mapsOf 0 = ((coverage [0] [1]).mapsOf 0).filter
      fun m => ¬(coverage [0] [1]).Uses (localDims ((coverage [0] [1]).shapeOf 0) firstLocally) m := by
  obtain ⟨h', ok⟩ : ∃ h', mark_array_variable (coverage [0] [1]) 0 ['a'] firstLocally = .ok h' := ⟨_, rfl⟩
  exact ⟨h', ok, (maps_dropped_iff ok).mpr (by decide)⟩

/-- Two maps over both dimensions: the second is still there. -/
theorem secondMap_left : ¬∀ h a name indexes h', mark_array_variable h a name indexes = .ok h' →
    h'.mapsOf a = (h.mapsOf a).filter fun m => ¬h.Uses (localDims (h.shapeOf a) indexes) m := by
  intro claim
  have left := claim (coverage [0, 1] [0, 1]) 0 ['a'] firstLocally _ rfl
  exact absurd left (by decide)

end Libdap.Dap4
