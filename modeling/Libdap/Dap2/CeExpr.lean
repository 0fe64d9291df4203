import Libdap.Dap2.Array

/-! # Hyperslabs of the constraint expression

The parser reads the indices of a projection as unsigned 32-bit numbers, puts
them in a tagged union and builds one slice of three values for every dimension;
a star is the signed value -1. Applying the slices to an array or a grid reads
the union as a signed number whatever its tag says, and the only other test is
that of `add_constraint`.
-/

namespace Libdap.Dap2

open Ints

/-- The type tag of a `value`, as far as indices have one. -/
inductive ValueType where
  | int32
  | uint32
  deriving Repr, DecidableEq

/-- The union holds 32 bits, which `ui` and `i` read as unsigned or signed. -/
structure Value where
  type : ValueType
  bits : BitVec 32
  deriving Repr, DecidableEq

namespace Value

def ui (v : Value) : Nat := v.bits.toNat

def i (v : Value) : Int := v.bits.toInt

def ofUInt32 (n : BitVec 32) : Value := ⟨.uint32, n⟩

def star : Value := ⟨.int32, -1⟩

end Value

/-- One bracketed index of a projection. -/
inductive Index where
  | single (n : BitVec 32)
  | all
  | range (n m : BitVec 32)
  | onward (n : BitVec 32)
  | strided (n s m : BitVec 32)
  | stridedOnward (n s : BitVec 32)
  deriving Repr, DecidableEq

abbrev DimSlice := List Value

def makeArraySlice3 (v1 v2 v3 : Value) : DimSlice := [v1, v2, v3]

def makeArraySlice2 (v1 v2 : Value) : DimSlice := makeArraySlice3 v1 (.ofUInt32 1) v2

def makeArraySlice1 (v1 : Value) : DimSlice :=
  if v1.type = .int32 ∧ v1.i = -1 then makeArraySlice3 (.ofUInt32 0) (.ofUInt32 1) v1
  else makeArraySlice3 v1 (.ofUInt32 1) v1

/-- The actions of the rule `array_index`. -/
def Index.slice : Index → DimSlice
  | .single n => makeArraySlice1 (.ofUInt32 n)
  | .all => makeArraySlice1 .star
  | .range n m => makeArraySlice2 (.ofUInt32 n) (.ofUInt32 m)
  | .onward n => makeArraySlice2 (.ofUInt32 n) .star
  | .strided n s m => makeArraySlice3 (.ofUInt32 n) (.ofUInt32 s) (.ofUInt32 m)
  | .stridedOnward n s => makeArraySlice3 (.ofUInt32 n) (.ofUInt32 s) .star

def arrayRankError : String :=
  "Error: The number of dimensions in the constraint must match the number in the array."

def gridRankError : String :=
  "Error: The number of dimensions in the constraint must match the number in the grid."

def tooManyValues : String := "Too many values in index list for one or more variables."

def tooManyIndices : String := "Too many indices in constraint for one or more variables."

def projectedTwice : String :=
  "One or more Array variables were projected multiple times in the constraint expression."

/-- An array that is sent already has to be projected in the same way again. -/
def Array.Differs (a : Array) (d : Dimension) (start stride stop : Int) : Prop :=
  a.sendP = true ∧ (d.start ≠ start ∨ (d.stop ≠ stop ∧ stop ≠ -1) ∨ d.stride ≠ stride)

instance (a : Array) (d : Dimension) (start stride stop : Int) :
    Decidable (a.Differs d start stride stop) := inferInstanceAs (Decidable (_ ∧ _))

/-- The loop of `process_array_slices`, at the dimension `r`. -/
def processArrayFrom (a : Array) (r : Nat) : List DimSlice → Except String Array
  | [] => pure a
  | ds :: p =>
    match a.shape[r]? with
    | none => throw tooManyIndices
    | some d =>
      match ds with
      | start :: stride :: stop :: more =>
        if more ≠ [] then throw tooManyValues
        else if a.Differs d start.i stride.i stop.i then throw projectedTwice
        else do
          let a ← a.addConstraint r start.i stride.i stop.i
          processArrayFrom a (r + 1) p
      | _ => throw "a slice has three values"

def processArraySlices (a : Array) (s : List DimSlice) : Except String Array :=
  if a.shape.length ≠ s.length then throw arrayRankError
  else processArrayFrom a 0 s

/-- An array of any rank, and maps with one dimension each. -/
structure Grid where
  array : Array
  maps : List Array
  oneDim : ∀ m ∈ maps, m.shape.length = 1

/-- The loop over the maps. A map without a slice is not sent. -/
def processMaps : List DimSlice → List Array → Except String (List Array)
  | [], maps => pure maps
  | _ :: _, [] => throw tooManyIndices
  | slice :: p, m :: maps =>
    match slice with
    | start :: stride :: stop :: more =>
      let m := ({ m with sendP := true } : Array).resetConstraint
      if more ≠ [] then throw tooManyValues
      else do
        let m ← m.addConstraint 0 (i32 start.ui) stride.i stop.i
        let maps ← processMaps p maps
        pure (m :: maps)
    | _ => throw "a slice has three values"

/-- The array and the maps after the slices have been applied. -/
def processGridIndicialSlices (g : Grid) (s : List DimSlice) : Except String (Array × List Array) :=
  if g.array.shape.length ≠ s.length then throw gridRankError
  else do
    let array ← processArraySlices g.array s
    let maps ← processMaps s (g.maps.map fun m => { m with sendP := false })
    pure (array, maps)

namespace Index

/-- The triple of an index as the signed numbers that `add_constraint` is given. -/
def start : Index → Int
  | .all => 0
  | .single n | .range n _ | .onward n | .strided n _ _ | .stridedOnward n _ => n.toInt

def stride : Index → Int
  | .single _ | .all | .range _ _ | .onward _ => 1
  | .strided _ s _ | .stridedOnward _ s => s.toInt

def stop : Index → Int
  | .single n | .range _ n | .strided _ _ n => n.toInt
  | .all | .onward _ | .stridedOnward _ _ => -1

theorem slice_eq (ix : Index) : ∃ v1 v2 v3, ix.slice = [v1, v2, v3] ∧
    v1.i = ix.start ∧ v2.i = ix.stride ∧ v3.i = ix.stop := by
  cases ix with
  | all => exact ⟨.ofUInt32 0, .ofUInt32 1, .star, by decide, rfl, rfl, rfl⟩
  | single n => exact ⟨.ofUInt32 n, .ofUInt32 1, .ofUInt32 n, rfl, rfl, rfl, rfl⟩
  | range n m => exact ⟨.ofUInt32 n, .ofUInt32 1, .ofUInt32 m, rfl, rfl, rfl, rfl⟩
  | onward n => exact ⟨.ofUInt32 n, .ofUInt32 1, .star, rfl, rfl, rfl, rfl⟩
  | strided n s m => exact ⟨.ofUInt32 n, .ofUInt32 s, .ofUInt32 m, rfl, rfl, rfl, rfl⟩
  | stridedOnward n s => exact ⟨.ofUInt32 n, .ofUInt32 s, .star, rfl, rfl, rfl, rfl⟩

end Index

/-- The first value goes through the unsigned member and back to a signed one. -/
theorem Value.i32_ui (v : Value) : i32 v.ui = v.i := by
  have small := v.bits.isLt
  simp only [Value.ui, Value.i, i32, BitVec.toInt_eq_toNat_cond]
  split <;> omega

namespace Dimension

/-- The dimension with the index applied to it. -/
def apply (d : Dimension) (ix : Index) : Dimension :=
  d.constrain ix.start ix.stride (d.lastIndex ix.stop)

/-- The index starts in the dimension and not behind where it stops. -/
def Starts (d : Dimension) (ix : Index) : Prop := 0 ≤ ix.start ∧ ix.start ≤ d.lastIndex ix.stop

def Accepts (d : Dimension) (ix : Index) : Prop :=
  ¬ d.Refuses ix.start ix.stride (d.lastIndex ix.stop)

theorem apply_valid {d : Dimension} {ix : Index} (accepts : d.Accepts ix) :
    (d.apply ix).Valid ↔ d.Starts ix := by
  simp only [Accepts, Refuses, not_or, not_le, ge_iff_le, gt_iff_lt, not_lt] at accepts
  obtain ⟨⟨-, below, -, step⟩, -⟩ := accepts
  constructor
  · intro valid
    exact ⟨valid.nonneg, valid.ordered⟩
  · rintro ⟨nonneg, ordered⟩
    exact ⟨nonneg, ordered, below, step⟩

end Dimension

theorem addConstraint_apply {a b : Array} {r : Nat} {d : Dimension} (at_ : a.shape[r]? = some d)
    {ix : Index} (ok : a.addConstraint r ix.start ix.stride ix.stop = .ok b) :
    d.Accepts ix ∧ b.shape = a.shape.set r (d.apply ix) := by
  obtain ⟨accepts, rfl⟩ := Array.addConstraint_ok at_ ok
  exact ⟨accepts, rfl⟩

/-- The loop applies one index to each dimension from `r` on. -/
theorem processArrayFrom_ok {a b : Array} {r : Nat} {ixs : List Index}
    (ok : processArrayFrom a r (ixs.map Index.slice) = .ok b) :
    (∀ j, j < r → b.shape[j]? = a.shape[j]?) ∧
    ∀ j ix, ixs[j]? = some ix → ∃ d, a.shape[r + j]? = some d ∧ d.Accepts ix ∧
      b.shape[r + j]? = some (d.apply ix) := by
  induction ixs generalizing a r with
  | nil =>
      cases ok
      exact ⟨fun _ _ => rfl, fun j ix mem => by simp at mem⟩
  | cons ix ixs ih =>
      obtain ⟨v1, v2, v3, slice, start, stride, stop⟩ := ix.slice_eq
      simp only [List.map_cons, processArrayFrom, slice, start, stride, stop] at ok
      cases at_ : a.shape[r]? with
      | none => simp [at_] at ok
      | some d =>
          simp only [at_, ne_eq, not_true_eq_false, if_false] at ok
          split at ok
          · cases ok
          cases accepted : a.addConstraint r ix.start ix.stride ix.stop with
          | error e => simp [accepted, bind, Except.bind] at ok
          | ok c =>
              simp only [accepted, bind, Except.bind] at ok
              obtain ⟨accepts, shape⟩ := addConstraint_apply at_ accepted
              obtain ⟨before, after⟩ := ih ok
              have bound := (List.getElem?_eq_some_iff.mp at_).1
              constructor
              · intro j small
                rw [before j (by omega), shape, List.getElem?_set_ne (by omega)]
              · intro j ix' mem
                cases j with
                | zero =>
                    cases mem
                    refine ⟨d, at_, accepts, ?_⟩
                    rw [Nat.add_zero, before r (by omega), shape, List.getElem?_set_self bound]
                | succ j =>
                    obtain ⟨d', there, accepts', applied⟩ := after j ix' mem
                    rw [shape, List.getElem?_set_ne (by omega)] at there
                    have step : r + 1 + j = r + (j + 1) := by omega
                    rw [step] at there applied
                    exact ⟨d', there, accepts', applied⟩

theorem length_processArrayFrom {a b : Array} {r : Nat} {s : List DimSlice}
    (ok : processArrayFrom a r s = .ok b) : b.shape.length = a.shape.length := by
  induction s generalizing a r with
  | nil =>
      cases ok
      rfl
  | cons ds s ih =>
      simp only [processArrayFrom] at ok
      split at ok
      · cases ok
      rename_i d at_
      split at ok
      · split at ok
        · cases ok
        split at ok
        · cases ok
        rename_i start stride stop more _ _
        cases accepted : a.addConstraint r start.i stride.i stop.i with
        | error e => simp [accepted, bind, Except.bind] at ok
        | ok c =>
            simp only [accepted, bind, Except.bind] at ok
            obtain ⟨-, rfl⟩ := Array.addConstraint_ok at_ accepted
            rw [ih ok]
            simp [Array.updateLength]
      · cases ok

/-- Every index starts in its dimension and not behind where it stops. -/
def AllStart (shape : List Dimension) (ixs : List Index) : Prop :=
  ∀ (j : Nat) (d : Dimension) (ix : Index), shape[j]? = some d → ixs[j]? = some ix → d.Starts ix

/-- Every dimension of the array has been given the index that stands in its place. -/
theorem processArraySlices_ok {a b : Array} {ixs : List Index}
    (ok : processArraySlices a (ixs.map Index.slice) = .ok b) :
    b.shape.length = ixs.length ∧ a.shape.length = ixs.length ∧
    ∀ (j : Nat) (ix : Index), ixs[j]? = some ix → ∃ d : Dimension, a.shape[j]? = some d ∧
      d.Accepts ix ∧ b.shape[j]? = some (d.apply ix) := by
  unfold processArraySlices at ok
  split at ok
  · cases ok
  · rename_i rank
    have same : a.shape.length = ixs.length := by simpa using rank
    refine ⟨(length_processArrayFrom ok).trans same, same, ?_⟩
    intro j ix mem
    obtain ⟨d, at_, accepts, applied⟩ := (processArrayFrom_ok ok).2 j ix mem
    rw [Nat.zero_add] at at_ applied
    exact ⟨d, at_, accepts, applied⟩

theorem array_valid_iff {a b : Array} {ixs : List Index}
    (ok : processArraySlices a (ixs.map Index.slice) = .ok b) :
    (∀ d ∈ b.shape, d.Valid) ↔ AllStart a.shape ixs := by
  obtain ⟨length, -, applied⟩ := processArraySlices_ok ok
  constructor
  · intro valid j d ix at_ mem
    obtain ⟨d', at', accepts, there⟩ := applied j ix mem
    cases at_.symm.trans at'
    exact (Dimension.apply_valid accepts).mp (valid _ (List.mem_of_getElem? there))
  · intro starts d mem
    obtain ⟨j, bound, rfl⟩ := List.getElem_of_mem mem
    have inside : j < ixs.length := length ▸ bound
    obtain ⟨d, at_, accepts, there⟩ := applied j ixs[j] (List.getElem?_eq_getElem inside)
    rw [List.getElem?_eq_getElem bound, Option.some.injEq] at there
    rw [there]
    exact (Dimension.apply_valid accepts).mpr (starts j d _ at_ (List.getElem?_eq_getElem inside))

/-- What the loop makes of one map. -/
structure Projected (ix : Index) (m n : Array) : Prop where
  sent : n.sendP = true
  applied : ∃ e : Dimension, m.shape = [e] ∧ e.reset.Accepts ix ∧ n.shape = [e.reset.apply ix]

theorem reset_one {m : Array} {e : Dimension} (one : m.shape = [e]) :
    (m.resetConstraint).shape = [e.reset] ∧ (m.resetConstraint).sendP = m.sendP := by
  rw [Array.resetConstraint, one, Array.resetFrom_cons]
  exact ⟨rfl, rfl⟩

theorem processMaps_ok {ixs : List Index} {maps maps' : List Array}
    (oneDim : ∀ m ∈ maps, m.shape.length = 1)
    (ok : processMaps (ixs.map Index.slice) maps = .ok maps') :
    (∀ (j : Nat) (ix : Index), ixs[j]? = some ix →
      ∃ m n : Array, maps[j]? = some m ∧ maps'[j]? = some n ∧ Projected ix m n) ∧
    ∀ (j : Nat), ixs.length ≤ j → maps'[j]? = maps[j]? := by
  induction ixs generalizing maps maps' with
  | nil =>
      simp only [List.map_nil, processMaps] at ok
      cases ok
      exact ⟨fun j ix mem => by simp at mem, fun _ _ => rfl⟩
  | cons ix ixs ih =>
      obtain ⟨v1, v2, v3, slice, start, stride, stop⟩ := ix.slice_eq
      cases maps with
      | nil => simp [processMaps] at ok
      | cons m maps =>
          simp only [List.map_cons, processMaps, slice, Value.i32_ui, start, stride, stop] at ok
          simp only [ne_eq, not_true_eq_false, if_false] at ok
          obtain ⟨e, one⟩ := List.length_eq_one_iff.mp (oneDim m (List.mem_cons_self ..))
          have reset := @reset_one { m with sendP := true } e one
          cases accepted : (({ m with sendP := true } : Array).resetConstraint).addConstraint 0
              ix.start ix.stride ix.stop with
          | error e => simp [accepted, bind, Except.bind] at ok
          | ok n =>
              cases rest : processMaps (ixs.map Index.slice) maps with
              | error e => simp [accepted, rest, bind, Except.bind] at ok
              | ok ns =>
                  simp only [accepted, rest, bind, Except.bind, pure, Except.pure, Except.ok.injEq] at ok
                  subst ok
                  have at_ : (({ m with sendP := true } : Array).resetConstraint).shape[0]? =
                      some e.reset := by simp [reset.1]
                  obtain ⟨accepts, applied⟩ := Array.addConstraint_ok at_ accepted
                  obtain ⟨projected, others⟩ :=
                    ih (fun m' mem => oneDim m' (List.mem_cons_of_mem m mem)) rest
                  constructor
                  · intro j ix' mem
                    cases j with
                    | zero =>
                        cases mem
                        refine ⟨m, n, rfl, rfl, ?_, e, one, accepts, ?_⟩
                        · rw [applied]
                          exact reset.2
                        · rw [applied]
                          simp [Array.updateLength, reset.1, Dimension.apply]
                    | succ j => exact projected j ix' mem
                  · intro j past
                    cases j with
                    | zero => simp at past
                    | succ j => exact others j (by simpa using past)

/-- Every dimension of the array and of the maps that are sent is valid, and such a
    map selects the same as the dimension of the array it belongs to. -/
structure GridValid (array : Array) (maps : List Array) : Prop where
  dims : ∀ d ∈ array.shape, d.Valid
  sent : ∀ (j : Nat) (m : Array), maps[j]? = some m → m.sendP = true →
    ∃ d e : Dimension, array.shape[j]? = some d ∧ m.shape = [e] ∧ e.Valid ∧
      e.start = d.start ∧ e.stride = d.stride ∧ e.stop = d.stop

/-- An index stops at the same place in a dimension of the array and in its map. -/
def Grid.Alike (g : Grid) (ixs : List Index) : Prop :=
  ∀ (j : Nat) (ix : Index) (d : Dimension) (m : Array) (e : Dimension), ixs[j]? = some ix →
    g.array.shape[j]? = some d → g.maps[j]? = some m → m.shape = [e] →
    d.lastIndex ix.stop = e.lastIndex ix.stop

theorem grid_valid_iff {g : Grid} {ixs : List Index} {array : Array} {maps : List Array}
    (ok : processGridIndicialSlices g (ixs.map Index.slice) = .ok (array, maps)) :
    GridValid array maps ↔ AllStart g.array.shape ixs ∧ g.Alike ixs := by
  unfold processGridIndicialSlices at ok
  split at ok
  · cases ok
  cases applied : processArraySlices g.array (ixs.map Index.slice) with
  | error e => simp [applied, bind, Except.bind] at ok
  | ok a =>
      cases mapped : processMaps (ixs.map Index.slice) (g.maps.map fun m => { m with sendP := false }) with
      | error e => simp [applied, mapped, bind, Except.bind] at ok
      | ok ms =>
          simp only [applied, mapped, bind, Except.bind, pure, Except.pure, Except.ok.injEq,
            Prod.mk.injEq] at ok
          obtain ⟨rfl, rfl⟩ := ok
          obtain ⟨length, rank, dims⟩ := processArraySlices_ok applied
          have oneDim : ∀ m ∈ (g.maps.map fun m => ({ m with sendP := false } : Array)),
              m.shape.length = 1 := by
            intro m mem
            obtain ⟨m', mem', rfl⟩ := List.mem_map.mp mem
            exact g.oneDim m' mem'
          obtain ⟨projected, others⟩ := processMaps_ok oneDim mapped
          constructor
          · intro valid
            refine ⟨(array_valid_iff applied).mp valid.dims, ?_⟩
            intro j ix d m e mem at_ map_ one
            obtain ⟨m', n, there, sent, ⟨yes, e', one', -, shape⟩⟩ := projected j ix mem
            obtain ⟨d', e'', dim, single, -, -, -, stop⟩ := valid.sent j n sent yes
            obtain ⟨d'', at', -, result⟩ := dims j ix mem
            cases at_.symm.trans at'
            cases dim.symm.trans result
            cases single.symm.trans shape
            rw [List.getElem?_map, map_] at there
            cases there
            cases one.symm.trans one'
            exact stop.symm
          · rintro ⟨starts, alike⟩
            refine ⟨(array_valid_iff applied).mpr starts, ?_⟩
            intro j n at_ yes
            by_cases inside : j < ixs.length
            · have mem := List.getElem?_eq_getElem inside
              obtain ⟨m', n', there, sent, ⟨-, e, one, accepts, shape⟩⟩ := projected j _ mem
              cases at_.symm.trans sent
              obtain ⟨d, dim, accepts', result⟩ := dims j _ mem
              obtain ⟨m, map_, rfl⟩ := Option.map_eq_some_iff.mp (List.getElem?_map ▸ there)
              have same := alike j _ d m e mem dim map_ one
              have first := starts j d _ dim mem
              refine ⟨_, _, result, shape, ?_, rfl, rfl, same.symm⟩
              apply (Dimension.apply_valid accepts).mpr
              exact ⟨first.1, first.2.trans same.le⟩
            · rw [others j (by omega), List.getElem?_map] at at_
              obtain ⟨m, -, rfl⟩ := Option.map_eq_some_iff.mp at_
              cases yes

/-- Whatever projection completes, its hyperslabs are valid exactly when every index
    starts in its dimension and not behind its stop and, for a grid, means the same
    in the map. -/
theorem hyperslabs_valid (ixs : List Index) :
    (∀ a b : Array, processArraySlices a (ixs.map Index.slice) = .ok b →
      ((∀ d ∈ b.shape, d.Valid) ↔ AllStart a.shape ixs)) ∧
    ∀ (g : Grid) (array : Array) (maps : List Array),
      processGridIndicialSlices g (ixs.map Index.slice) = .ok (array, maps) →
      (GridValid array maps ↔ AllStart g.array.shape ixs ∧ g.Alike ixs) :=
  ⟨fun _ _ ok => array_valid_iff ok, fun _ _ _ ok => grid_valid_iff ok⟩

/-- Ten elements and their map. -/
def tenGrid : Grid := ⟨Array.create.appendDim 10, [Array.create.appendDim 10], by decide⟩

theorem two_three_eight : ∃ array maps,
    processGridIndicialSlices tenGrid ([.strided 2 3 8].map Index.slice) = .ok (array, maps) ∧
    array.length = 3 ∧ GridValid array maps := by
  refine ⟨_, _, rfl, by decide, ?_⟩
  apply ((hyperslabs_valid [.strided 2 3 8]).2 tenGrid _ _ rfl).mpr
  constructor
  · intro j d ix at_ mem
    cases j with
    | zero =>
        cases at_
        cases mem
        exact ⟨by decide, by decide⟩
    | succ j => cases at_
  · intro j ix d m e mem at_ map_ one
    cases j with
    | zero =>
        cases at_
        cases map_
        cases one
        rfl
    | succ j => cases at_

/-- `[5:2]` and `[4294967294]` are let through for ten elements. -/
theorem invalid_hyperslabs :
    (∃ b, processArraySlices (Array.create.appendDim 10) ([.range 5 2].map Index.slice) = .ok b ∧
      ¬ ∀ d ∈ b.shape, d.Valid) ∧
    ∃ b, processArraySlices (Array.create.appendDim 10) ([.single 4294967294].map Index.slice) = .ok b ∧
      ¬ ∀ d ∈ b.shape, d.Valid := by
  refine ⟨⟨_, rfl, ?_⟩, ⟨_, rfl, ?_⟩⟩
  · intro valid
    have ordered := (valid ⟨10, 5, 2, 1, -2⟩ (by decide)).ordered
    revert ordered
    decide
  · intro valid
    have nonneg := (valid ⟨10, -2, -2, 1, 1⟩ (by decide)).nonneg
    revert nonneg
    decide

end Libdap.Dap2
