import Libdap.Dap4.Slices

/-! # What a slice makes of a dimension

The operations of the evaluator, dimension by dimension: what becomes of each one
under the index that is given for it, and that every other one stays as it is.
A dimension gets the values it was asked for exactly when the index does not
start behind its stop, or the shared slice can be written with `int`s.
-/

namespace Libdap.Dap4

open Ints

/-- The values that are asked for, as 64-bit numbers. -/
structure Request where
  start : Int
  stride : Int
  stop : Int
  deriving Repr, DecidableEq

namespace Request

def ofShared (s : D4Dimension) : Request := ⟨s.cStart, s.cStride, s.cStop⟩

/-- An index on a dimension of some size. -/
def ofIndex (size : Int) (i : Index) : Request := ⟨i.start, i.stride, if i.rest then size - 1 else i.stop⟩

end Request

namespace D4Dimension

/-- The dimension without its mark. -/
def unmarked (d : D4Dimension) : D4Dimension := { d with usedByProjectedVar := false }

/-- The slice of a shared dimension, read like one of an array's own. -/
def slice (d : D4Dimension) : Dap2.Dimension :=
  { size := d.size, start := d.cStart, stop := d.cStop, stride := d.cStride, cSize := d.printedSize }

end D4Dimension

namespace Dimension

/-- The dimension has the slice that was asked for, and it is one. -/
structure Answers (d : Dimension) (r : Request) : Prop where
  start : d.start = r.start
  stride : d.stride = r.stride
  stop : d.stop = r.stop
  consistent : d.toDimension.Consistent

/-- What `shareDimension` makes of a dimension. -/
def SharedBy (d : Dimension) (s : D4Dimension) (d' : Dimension) : Prop :=
  if s.constrained then
    ¬d.Refuses (i32 s.cStart) (i32 s.cStride) (d.lastIndex (i32 s.cStop)) ∧
      d'.toDimension = d.constrain (i32 s.cStart) (i32 s.cStride) (d.lastIndex (i32 s.cStop))
  else d'.toDimension = d.toDimension

/-- What `sliceLocally` makes of a dimension, after the two checks. -/
structure SlicedBy (d : Dimension) (i : Index) (d' : Dimension) : Prop where
  stride : i.stride ≤ d.span
  stop : i.rest = false → i.stop ≤ d.span
  accepted : ¬d.Refuses (i32 i.start) (i32 i.stride) (d.lastIndex (if i.rest then -1 else i32 i.stop))
  core : d'.toDimension =
    d.constrain (i32 i.start) (i32 i.stride) (d.lastIndex (if i.rest then -1 else i32 i.stop))

/-- An `int` size, with the whole dimension or a part of it selected. A size that is not
    positive stands for a shared dimension an `int` cannot count. -/
structure Sound (d : Dimension) : Prop where
  small : d.size < 2 ^ 31
  consistent : 1 ≤ d.size → d.toDimension.Consistent

end Dimension

theorem i32_of_nat_le {n : Nat} {m : Int} (le : (n : Int) ≤ m) (small : m < 2 ^ 31) : i32 n = n :=
  i32_ofNat_of_lt (by omega)

/-- What is accepted is not empty, so that the dimension is not either. -/
theorem size_pos_of_accepted {d : Dap2.Dimension} {start stride stop : Int}
    (accepted : ¬d.Refuses start stride stop) : 1 ≤ d.size ∧ stop < d.size ∧ 0 < stride ∧ stride ≤ d.size := by
  simp only [Dap2.Dimension.Refuses, not_or, not_le, ge_iff_le, gt_iff_lt, not_lt] at accepted
  omega

theorem span_eq {d : Dimension} (small : d.size < 2 ^ 31) (consistent : d.toDimension.Consistent) :
    (d.span : Int) = d.stop - d.start + 1 := by
  have nonneg := consistent.valid.nonneg
  have ordered := consistent.valid.ordered
  have inside := consistent.valid.inside
  have difference : i32 (d.stop - d.start) = d.stop - d.start := i32_of_fits ⟨by omega, by omega⟩
  simp only [Dimension.span, difference, u64]
  omega

theorem sharedBy_answers {d d' : Dimension} {s : D4Dimension} (sound : d.Sound)
    (constrained : s.constrained = true) (valid : s.slice.Consistent) (sliced : d.SharedBy s d') :
    d'.Answers (.ofShared s) ↔ s.cStop < 2 ^ 31 ∧ s.cStride < 2 ^ 31 := by
  simp only [Dimension.SharedBy, constrained, if_true] at sliced
  obtain ⟨accepted, core⟩ := sliced
  obtain ⟨pos, below, -, width⟩ := size_pos_of_accepted accepted
  have small := sound.small
  have ordered : s.cStart ≤ s.cStop := Int.ofNat_le.mp valid.valid.ordered
  constructor
  · intro answers
    have stop := answers.stop
    have stride := answers.stride
    rw [core] at stop stride
    simp only [Dap2.Dimension.constrain, Request.ofShared] at stop stride
    omega
  · rintro ⟨stop, stride⟩
    have start' : i32 s.cStart = s.cStart := i32_ofNat_of_lt (by omega)
    have stop' : d.lastIndex (i32 s.cStop) = s.cStop := by
      rw [i32_ofNat_of_lt stop, Dap2.Dimension.lastIndex, if_neg (by omega)]
    have stride' : i32 s.cStride = s.cStride := i32_ofNat_of_lt stride
    rw [start', stop', stride'] at core accepted
    have consistent := (Dap2.Dimension.constrain_consistent small accepted).mpr ⟨by omega, by omega⟩
    rw [← core] at consistent
    exact ⟨by rw [core]; rfl, by rw [core]; rfl, by rw [core]; rfl, consistent⟩

theorem slicedBy_answers {d d' : Dimension} {i : Index} (sound : d.Sound) (sliced : d.SlicedBy i d') :
    d'.Answers (.ofIndex d.size i) ↔ (i.start : Int) ≤ (Request.ofIndex d.size i).stop := by
  obtain ⟨strideLe, stopLe, accepted, core⟩ := sliced
  obtain ⟨pos, below, -, width⟩ := size_pos_of_accepted accepted
  have small := sound.small
  have consistent := sound.consistent pos
  have span := span_eq small consistent
  have inside := consistent.valid.inside
  have nonneg := consistent.valid.nonneg
  have stride' : i32 i.stride = i.stride := i32_ofNat_of_lt (by omega)
  have stop' : d.lastIndex (if i.rest then -1 else i32 i.stop) = (Request.ofIndex d.size i).stop := by
    simp only [Request.ofIndex]
    cases rest : i.rest with
    | true =>
        rw [if_pos rfl, if_pos rfl, Dap2.Dimension.lastIndex, if_pos rfl]
        exact i32_of_fits ⟨by omega, by omega⟩
    | false =>
        have le := stopLe rest
        rw [if_neg Bool.false_ne_true, if_neg Bool.false_ne_true, i32_ofNat_of_lt (by omega),
          Dap2.Dimension.lastIndex, if_neg (by omega)]
  rw [stop', stride'] at core accepted
  rw [stop'] at below
  constructor
  · intro answers
    have start := answers.start
    have stop := answers.stop
    have ordered := answers.consistent.valid.ordered
    rw [start, stop] at ordered
    exact ordered
  · intro le
    have start' : i32 i.start = i.start := i32_of_nat_le le (by omega)
    rw [start'] at core accepted
    have consistent := (Dap2.Dimension.constrain_consistent small accepted).mpr ⟨by omega, le⟩
    rw [← core] at consistent
    exact ⟨by rw [core]; rfl, by rw [core]; rfl, by rw [core]; rfl, consistent⟩


namespace Heap

/-- Nothing but the mark of a shared dimension differs. -/
def SameDims (h h' : Heap) : Prop :=
  h'.dims.map D4Dimension.unmarked = h.dims.map D4Dimension.unmarked

theorem SameDims.refl (h : Heap) : h.SameDims h := rfl

theorem SameDims.trans {h h₁ h₂ : Heap} (first : h.SameDims h₁) (then_ : h₁.SameDims h₂) : h.SameDims h₂ :=
  Eq.trans then_ first

theorem sameDims_use (h : Heap) (dim : Nat) : h.SameDims (h.use dim) := by
  apply List.ext_getElem
  · simp [use]
  · intro n _ _
    simp only [use, List.getElem_map, List.getElem_modify]
    split <;> rfl

theorem SameDims.at {h h' : Heap} (same : h.SameDims h') {D : Nat} {s' : D4Dimension}
    (found : h'.dims[D]? = some s') :
    ∃ s, h.dims[D]? = some s ∧ s'.toD4Dimension = s.toD4Dimension ∧ s'.name = s.name := by
  have there : (h'.dims.map D4Dimension.unmarked)[D]? = some s'.unmarked := by simp [found]
  rw [same, List.getElem?_map, Option.map_eq_some_iff] at there
  obtain ⟨s, found', eq⟩ := there
  have core : s.unmarked.toD4Dimension = s'.unmarked.toD4Dimension := congrArg _ eq
  have name : s.unmarked.name = s'.unmarked.name := congrArg _ eq
  exact ⟨s, found', core.symm, name.symm⟩

@[simp]
theorem shapeOf_use (h : Heap) (dim a : Nat) : (h.use dim).shapeOf a = h.shapeOf a := rfl

theorem shapeOf_setArray {h : Heap} {a : Nat} (bound : a < h.arrays.length) (array : Array) (b : Nat) :
    (h.setArray a array).shapeOf b = if b = a then array.shape else h.shapeOf b := by
  simp only [shapeOf, setArray, List.getElem?_set]
  by_cases same : a = b
  · simp [same, same ▸ bound]
  · simp [same, Ne.symm same]

end Heap

namespace Dimension

/-- What becomes of a dimension under the index that is given for it, if any. -/
def Becomes (h : Heap) (d : Dimension) (i : Option Index) (d' : Dimension) : Prop :=
  d'.dim = d.dim ∧ d'.name = d.name ∧
  match i, d.dim with
  | none, none => d' = d
  | none, some D => ∃ s, h.dims[D]? = some s ∧ d.SharedBy s d'
  | some i, none => d.SlicedBy i d'
  | some i, some D => if i.empty then ∃ s, h.dims[D]? = some s ∧ d.SharedBy s d' else d.SlicedBy i d'

end Dimension

theorem add_constraint_ok {a a' : Array} {k : Nat} {start stride stop : Int}
    (ok : a.add_constraint k start stride stop = .ok a') :
    ∃ d, a.shape[k]? = some d ∧ ¬d.Refuses start stride (d.lastIndex stop) ∧
      a'.shape = a.shape.set k (d.slice start stride (d.lastIndex stop)) ∧ a'.maps = a.maps := by
  unfold Array.add_constraint at ok
  split at ok
  · cases ok
  rename_i d found
  simp only at ok
  split at ok
  · cases ok
  · rename_i accepted
    cases ok
    exact ⟨d, found, accepted, rfl, rfl⟩

theorem share_ok {a a' : Array} {k : Nat}
    (ok : (match a.shape[k]? with
      | none => (throw "not an iterator of this array" : Except String Array)
      | some d => return { a with shape := a.shape.set k d.share }) = .ok a') :
    ∃ d, a.shape[k]? = some d ∧ a'.shape = a.shape.set k d.share ∧ a'.maps = a.maps := by
  split at ok
  · cases ok
  · rename_i d found
    cases ok
    exact ⟨d, found, rfl, rfl⟩

theorem add_d4_constraint_ok {a a' : Array} {k : Nat} {s : D4Dimension}
    (ok : a.add_d4_constraint k s = .ok a') :
    ∃ d d', a.shape[k]? = some d ∧ a'.shape = a.shape.set k d' ∧ d.SharedBy s d' ∧ d'.dim = d.dim ∧
      d'.name = d.name ∧ d'.useSdimForSlice = true ∧ a'.maps = a.maps := by
  simp only [Array.add_d4_constraint] at ok
  cases constrained : s.constrained with
  | false =>
      simp only [constrained, Bool.false_eq_true, if_false, pure_bind] at ok
      obtain ⟨d, found, shape, maps⟩ := share_ok ok
      have sharedBy : d.SharedBy s d.share := by simp [Dimension.SharedBy, constrained]
      exact ⟨d, d.share, found, shape, sharedBy, d.share_dim, d.share_name, d.share_use, maps⟩
  | true =>
      simp only [constrained, if_true] at ok
      cases sliced : a.add_constraint k (i32 s.cStart) (i32 s.cStride) (i32 s.cStop) with
      | error e => rw [sliced] at ok; cases ok
      | ok b =>
          rw [sliced] at ok
          obtain ⟨d, found, accepted, shape, maps⟩ := add_constraint_ok sliced
          obtain ⟨d₁, found₁, shape₁, maps₁⟩ := share_ok ok
          have bound := (List.getElem?_eq_some_iff.mp found).1
          rw [shape, List.getElem?_set_self bound, Option.some_inj] at found₁
          rw [shape, List.set_set] at shape₁
          have sharedBy : d.SharedBy s d₁.share := by
            simp only [Dimension.SharedBy, constrained, if_true]
            exact ⟨accepted, by rw [← found₁, Dimension.share_core, Dimension.slice_core]⟩
          exact ⟨d, d₁.share, found, shape₁, sharedBy, by rw [← found₁, Dimension.share_dim, Dimension.slice_dim],
            by rw [← found₁, Dimension.share_name, Dimension.slice_name], d₁.share_use, maps₁.trans maps⟩

theorem dropMap_shape {h : Heap} {dim : Option D4Dimension} {a a' : Array} (ok : dropMap h dim a = .ok a') :
    a'.shape = a.shape := by
  unfold dropMap at ok
  cases found : mapToBeRemoved h dim a.maps with
  | error e => rw [found] at ok; cases ok
  | ok m =>
      rw [found] at ok
      cases m with
      | none => cases ok; rfl
      | some m => cases ok; rfl

/-- One dimension of one array changes. -/
structure Changes (h : Heap) (a k : Nat) (i : Option Index) (h' : Heap) : Prop where
  at_ : ∃ d d', (h.shapeOf a)[k]? = some d ∧ d.Becomes h i d' ∧ h'.shapeOf a = (h.shapeOf a).set k d'
  others : ∀ b, b ≠ a → h'.shapeOf b = h.shapeOf b
  dims : h.SameDims h'

theorem shapeOf_eq {h : Heap} {a : Nat} {array : Array} (found : h.arrays[a]? = some array) :
    h.shapeOf a = array.shape := by
  simp [Heap.shapeOf, found]

theorem shareDimension_ok {h h' : Heap} {a k D : Nat} (ok : shareDimension h a k D = .ok h') :
    ∃ d d' s, (h.shapeOf a)[k]? = some d ∧ h.dims[D]? = some s ∧ d.SharedBy s d' ∧ d'.dim = d.dim ∧
      d'.name = d.name ∧ h'.shapeOf a = (h.shapeOf a).set k d' ∧
      (∀ b, b ≠ a → h'.shapeOf b = h.shapeOf b) ∧ h.SameDims h' ∧ h'.dims = (h.use D).dims := by
  unfold shareDimension at ok
  split at ok
  · rename_i array shared there found
    cases changed : array.add_d4_constraint k shared with
    | error e => rw [changed] at ok; cases ok
    | ok array' =>
        rw [changed] at ok
        cases ok
        obtain ⟨d, d', at_, shape, sharedBy, dim, name, -, -⟩ := add_d4_constraint_ok changed
        have bound := (List.getElem?_eq_some_iff.mp there).1
        refine ⟨d, d', shared, by rw [shapeOf_eq there, at_], found, sharedBy, dim, name, ?_, ?_, ?_, rfl⟩
        · rw [Heap.shapeOf_use, Heap.shapeOf_setArray bound, if_pos rfl, shape, shapeOf_eq there]
        · intro b other
          rw [Heap.shapeOf_use, Heap.shapeOf_setArray bound, if_neg other]
        · exact Heap.sameDims_use _ _
  · cases ok

theorem sliceLocally_ok {h h' : Heap} {a k : Nat} {i : Index} (ok : sliceLocally h a k i = .ok h') :
    ∃ d d', (h.shapeOf a)[k]? = some d ∧
      ¬d.Refuses (i32 i.start) (i32 i.stride) (d.lastIndex (if i.rest then -1 else i32 i.stop)) ∧
      d'.toDimension =
        d.constrain (i32 i.start) (i32 i.stride) (d.lastIndex (if i.rest then -1 else i32 i.stop)) ∧
      d'.dim = d.dim ∧ d'.name = d.name ∧ h'.shapeOf a = (h.shapeOf a).set k d' ∧
      (∀ b, b ≠ a → h'.shapeOf b = h.shapeOf b) ∧ h'.dims = h.dims ∧ d'.useSdimForSlice = false := by
  unfold sliceLocally at ok
  split at ok
  · cases ok
  rename_i array there
  cases sliced : array.add_constraint k (i32 i.start) (i32 i.stride) (if i.rest then -1 else i32 i.stop) with
  | error e => simp only [sliced] at ok; cases ok
  | ok b =>
      simp only [sliced, bind, Except.bind] at ok
      split at ok
      · cases ok
      · rename_i b' dropped
        cases ok
        obtain ⟨d, at_, accepted, shape, -⟩ := add_constraint_ok sliced
        have bound := (List.getElem?_eq_some_iff.mp there).1
        have at' : (h.shapeOf a)[k]? = some d := by rw [shapeOf_eq there, at_]
        refine ⟨d, _, at', accepted, Dimension.slice_core .., Dimension.slice_dim .., Dimension.slice_name ..,
          ?_, ?_, rfl, rfl⟩
        · rw [Heap.shapeOf_setArray bound, if_pos rfl, dropMap_shape dropped, shape, shapeOf_eq there]
        · intro b other
          rw [Heap.shapeOf_setArray bound, if_neg other]

theorem indexDimension_ok {h h' : Heap} {a k : Nat} {name : Name} {i : Index}
    (ok : indexDimension h a name k i = .ok h') : Changes h a k (some i) h' := by
  unfold indexDimension at ok
  split at ok
  · cases ok
  rename_i d found
  split at ok
  · cases ok
  rename_i stride
  split at ok
  · cases ok
  rename_i stop
  have strideLe : i.stride ≤ d.span := Nat.le_of_not_lt stride
  have stopLe : i.rest = false → i.stop ≤ d.span := by
    intro rest
    simpa [rest] using stop
  have locally_ : sliceLocally h a k i = .ok h' →
      ∃ d', d'.dim = d.dim ∧ d'.name = d.name ∧ d.SlicedBy i d' ∧ h'.shapeOf a = (h.shapeOf a).set k d' ∧
        (∀ b, b ≠ a → h'.shapeOf b = h.shapeOf b) ∧ h.SameDims h' := by
    intro ok
    obtain ⟨d₁, d', found', accepted, core, dim, name, shape, others, dims, -⟩ := sliceLocally_ok ok
    obtain rfl := Option.some.inj (found.symm.trans found')
    have same : h.SameDims h' := by rw [Heap.SameDims, dims]
    exact ⟨d', dim, name, ⟨strideLe, stopLe, accepted, core⟩, shape, others, same⟩
  split at ok
  · rename_i D shared
    split at ok
    · rename_i empty
      obtain ⟨d₁, d', s, found', there, sharedBy, dim, name, shape, others, dims, -⟩ := shareDimension_ok ok
      obtain rfl := Option.some.inj (found.symm.trans found')
      refine ⟨⟨d, d', found, ⟨dim, name, ?_⟩, shape⟩, others, dims⟩
      simp only [shared, empty, if_true]
      exact ⟨s, there, sharedBy⟩
    · rename_i named
      obtain ⟨d', dim, name, sliced, shape, others, dims⟩ := locally_ ok
      refine ⟨⟨d, d', found, ⟨dim, name, ?_⟩, shape⟩, others, dims⟩
      simp only [shared, named]
      exact sliced
  · rename_i local_
    obtain ⟨d', dim, name, sliced, shape, others, dims⟩ := locally_ ok
    refine ⟨⟨d, d', found, ⟨dim, name, ?_⟩, shape⟩, others, dims⟩
    simp only [local_]
    exact sliced

/-- The slices that are asked for by a list of indexes, where none of them is for
    an unsliced dimension. -/
structure Marks (h : Heap) (a : Nat) (i : Nat → Option Index) (h' : Heap) : Prop where
  at_ : ∀ k : Nat, ∀ d ∈ (h.shapeOf a)[k]?, ∃ d' ∈ (h'.shapeOf a)[k]?, d.Becomes h (i k) d'
  length : (h'.shapeOf a).length = (h.shapeOf a).length
  others : ∀ b, b ≠ a → h'.shapeOf b = h.shapeOf b
  dims : h.SameDims h'

theorem Dimension.SharedBy.congr {d d' : Dimension} {s s' : D4Dimension}
    (same : s'.toD4Dimension = s.toD4Dimension) : d.SharedBy s' d' ↔ d.SharedBy s d' := by
  simp only [Dimension.SharedBy, same]

theorem Dimension.Becomes.congr {h h' : Heap} (same : h.SameDims h') {d d' : Dimension} {i : Option Index}
    (becomes : d.Becomes h' i d') : d.Becomes h i d' := by
  have back : ∀ D : Nat, (∃ s, h'.dims[D]? = some s ∧ d.SharedBy s d') →
      ∃ s, h.dims[D]? = some s ∧ d.SharedBy s d' := by
    rintro D ⟨s', found, sharedBy⟩
    obtain ⟨s, there, eq, -⟩ := same.at found
    exact ⟨s, there, (Dimension.SharedBy.congr eq).mp sharedBy⟩
  obtain ⟨dim, name, rest⟩ := becomes
  refine ⟨dim, name, ?_⟩
  cases i with
  | none =>
      cases shared : d.dim with
      | none => simpa only [shared] using rest
      | some D => exact back D (by simpa only [shared] using rest)
  | some i =>
      cases shared : d.dim with
      | none => simpa only [shared] using rest
      | some D =>
          simp only [shared] at rest ⊢
          split
          · rename_i empty
            rw [if_pos empty] at rest
            exact back D rest
          · rename_i named
            rw [if_neg named] at rest
            exact rest

theorem indexDimensions_ok {h h' : Heap} {a k : Nat} {name : Name} {indexes : List Index}
    (ok : indexDimensions h a name k indexes = .ok h') (fits : k + indexes.length = (h.shapeOf a).length) :
    (∀ j < k, (h'.shapeOf a)[j]? = (h.shapeOf a)[j]?) ∧
    (∀ j : Nat, ∀ d ∈ (h.shapeOf a)[k + j]?, ∃ d' ∈ (h'.shapeOf a)[k + j]?, d.Becomes h indexes[j]? d') ∧
    (h'.shapeOf a).length = (h.shapeOf a).length ∧ (∀ b, b ≠ a → h'.shapeOf b = h.shapeOf b) ∧ h.SameDims h' := by
  induction indexes generalizing h k with
  | nil =>
      cases ok
      refine ⟨fun j _ => rfl, ?_, rfl, fun b _ => rfl, Heap.SameDims.refl _⟩
      intro j d mem
      have bound := (List.getElem?_eq_some_iff.mp mem).1
      simp only [List.length_nil] at fits
      omega
  | cons i indexes ih =>
      simp only [indexDimensions] at ok
      cases first : indexDimension h a name k i with
      | error e => rw [first] at ok; cases ok
      | ok h₁ =>
          rw [first] at ok
          obtain ⟨⟨d, d', at_, becomes, shape⟩, others, dims⟩ := indexDimension_ok first
          have bound := (List.getElem?_eq_some_iff.mp at_).1
          have length : (h₁.shapeOf a).length = (h.shapeOf a).length := by rw [shape, List.length_set]
          obtain ⟨before, after, length', others', dims'⟩ := ih ok (by
            rw [length, ← fits, List.length_cons]; omega)
          refine ⟨?_, ?_, length'.trans length, ?_, dims.trans dims'⟩
          · intro j lt
            rw [before j (by omega), shape, List.getElem?_set_ne (by omega)]
          · intro j e mem
            cases j with
            | zero =>
                obtain rfl := Option.some.inj (at_.symm.trans mem)
                refine ⟨d', ?_, becomes⟩
                rw [Nat.add_zero, before k (Nat.lt_succ_self k), shape]
                exact List.getElem?_set_self bound
            | succ j =>
                have mem₁ : e ∈ (h₁.shapeOf a)[k + 1 + j]? := by
                  rw [shape, List.getElem?_set_ne (by omega), Nat.add_right_comm]
                  exact mem
                obtain ⟨e', mem', becomes'⟩ := after j e mem₁
                refine ⟨e', by rw [← Nat.add_assoc, Nat.add_right_comm]; exact mem', ?_⟩
                exact (List.getElem?_cons_succ (a := i) (l := indexes)) ▸ becomes'.congr dims
          · intro b other
            rw [others' b other, others b other]

theorem shareDimensions_ok {h h' : Heap} {a k : Nat} {rest : List Dimension}
    (ok : shareDimensions h a k rest = .ok h') (left : (h.shapeOf a).drop k = rest) :
    (∀ j < k, (h'.shapeOf a)[j]? = (h.shapeOf a)[j]?) ∧
    (∀ j : Nat, ∀ d ∈ (h.shapeOf a)[k + j]?, ∃ d' ∈ (h'.shapeOf a)[k + j]?, d.Becomes h none d') ∧
    (h'.shapeOf a).length = (h.shapeOf a).length ∧ (∀ b, b ≠ a → h'.shapeOf b = h.shapeOf b) ∧ h.SameDims h' := by
  induction rest generalizing h k with
  | nil =>
      cases ok
      refine ⟨fun j _ => rfl, ?_, rfl, fun b _ => rfl, Heap.SameDims.refl _⟩
      intro j d mem
      rw [← List.getElem?_drop, left] at mem
      cases mem
  | cons e rest ih =>
      have here : (h.shapeOf a)[k]? = some e := by
        rw [← Nat.add_zero k, ← List.getElem?_drop, left]
        rfl
      have left₁ : (h.shapeOf a).drop (k + 1) = rest := by rw [← List.drop_drop, left]; rfl
      simp only [shareDimensions] at ok
      split at ok
      · rename_i unshared
        obtain ⟨before, after, length, others, dims⟩ := ih ok left₁
        refine ⟨fun j lt => before j (by omega), ?_, length, others, dims⟩
        intro j d mem
        cases j with
        | zero =>
            obtain rfl := Option.some.inj (here.symm.trans mem)
            refine ⟨e, ?_, rfl, rfl, ?_⟩
            · rw [Nat.add_zero, before k (Nat.lt_succ_self k)]
              exact here
            · simp only [unshared]
        | succ j =>
            rw [← Nat.add_assoc, Nat.add_right_comm] at mem ⊢
            exact after j d mem
      · rename_i D shared
        cases first : shareDimension h a k D with
        | error e => rw [first] at ok; cases ok
        | ok h₁ =>
            rw [first] at ok
            obtain ⟨d, d', s, at_, there, sharedBy, dim, name, shape, others, dims, -⟩ := shareDimension_ok first
            have bound := (List.getElem?_eq_some_iff.mp at_).1
            have left₂ : (h₁.shapeOf a).drop (k + 1) = rest := by
              rw [shape, List.drop_set_of_lt (Nat.lt_succ_self k), left₁]
            obtain ⟨before, after, length', others', dims'⟩ := ih ok left₂
            have length : (h₁.shapeOf a).length = (h.shapeOf a).length := by rw [shape, List.length_set]
            refine ⟨?_, ?_, length'.trans length, ?_, dims.trans dims'⟩
            · intro j lt
              rw [before j (by omega), shape, List.getElem?_set_ne (by omega)]
            · intro j f mem
              cases j with
              | zero =>
                  obtain rfl := Option.some.inj (here.symm.trans mem)
                  obtain rfl := Option.some.inj (here.symm.trans at_)
                  refine ⟨d', ?_, dim, name, ?_⟩
                  · rw [Nat.add_zero, before k (Nat.lt_succ_self k), shape]
                    exact List.getElem?_set_self bound
                  · simp only [shared]
                    exact ⟨s, there, sharedBy⟩
              | succ j =>
                  have mem₁ : f ∈ (h₁.shapeOf a)[k + 1 + j]? := by
                    rw [shape, List.getElem?_set_ne (by omega), Nat.add_right_comm]
                    exact mem
                  obtain ⟨f', mem', becomes⟩ := after j f mem₁
                  exact ⟨f', by rw [← Nat.add_assoc, Nat.add_right_comm]; exact mem', becomes.congr dims⟩
            · intro b other
              rw [others' b other, others b other]

/-- Every dimension of the array becomes what its index makes of it. -/
theorem mark_array_variable_ok {h h' : Heap} {a : Nat} {name : Name} {indexes : List Index}
    (ok : mark_array_variable h a name indexes = .ok h') :
    Marks h a (fun k => indexes[k]?) h' := by
  unfold mark_array_variable at ok
  split at ok
  · rename_i none
    obtain ⟨-, after, length, others, dims⟩ := shareDimensions_ok ok rfl
    refine ⟨fun k d mem => ?_, length, others, dims⟩
    simp only [none, List.getElem?_nil]
    rw [← Nat.zero_add k] at mem ⊢
    exact after k d mem
  split at ok
  · cases ok
  · rename_i rank
    obtain ⟨-, after, length, others, dims⟩ := indexDimensions_ok ok (by omega)
    refine ⟨fun k d mem => ?_, length, others, dims⟩
    have there := after k
    rw [Nat.zero_add] at there
    exact there d mem

end Libdap.Dap4
