import Libdap.Dap2.GridParts

/-! # What a Grid represents

The flag and the vector stand for the parts as long as no deletion takes the array away:
`del_var` is a `Constructor`'s and leaves the flag. `get_map_iter` goes one map too far once
there is an array.
-/

namespace Libdap.Dap2.Grids

/-- The flag and the vector of a Grid with these parts, which are all arrays. -/
structure Represents (g : Grid) (p : Parts) : Prop where
  vars : g.vars = p.vars
  flag : g.isArraySet = p.array.isSome
  arrays : ∀ v ∈ p.vars, v.isArray = true

namespace Parts

@[simp] theorem vars_none (maps : List Variable) : Parts.vars ⟨none, maps⟩ = maps := rfl

@[simp] theorem vars_some (a : Variable) (maps : List Variable) : Parts.vars ⟨some a, maps⟩ = a :: maps := rfl

end Parts

namespace Represents

variable {g g' : Grid} {p q : Parts}

/-- A Grid is what its parts say. -/
theorem eq (rep : Represents g p) : g = ⟨p.array.isSome, p.vars⟩ := by
  obtain ⟨vars, flag, -⟩ := rep
  cases g
  simp_all

theorem of_parts (arrays : ∀ v ∈ p.vars, v.isArray = true) : Represents ⟨p.array.isSome, p.vars⟩ p :=
  ⟨rfl, rfl, arrays⟩

theorem made : Represents .create ⟨none, []⟩ := ⟨rfl, rfl, by simp⟩

/-! ## Access -/

theorem arrayVar (rep : Represents g p) : g.arrayVar = some p.array := by
  obtain ⟨array, maps⟩ := p
  rw [rep.eq]
  cases array <;> rfl

theorem getArray (rep : Represents g p) : g.getArray = some p.array := by
  have arrays := rep.arrays
  rw [Grid.getArray, rep.arrayVar]
  obtain ⟨array, maps⟩ := p
  cases array with
  | none => rfl
  | some a => simp [arrays a (by simp)]

theorem forward (rep : Represents g p) : g.mapsForward = some p.maps := by
  obtain ⟨array, maps⟩ := p
  rw [rep.eq]
  cases array with
  | none => simp [Grid.mapsForward, Grid.mapBegin, Grid.mapEnd, between]
  | some a => simp [Grid.mapsForward, Grid.mapBegin, Grid.mapEnd, between]

theorem backward (rep : Represents g p) : g.mapsBackward = some p.maps.reverse := by
  obtain ⟨array, maps⟩ := p
  rw [rep.eq]
  cases array with
  | none => simp [Grid.mapsBackward, Grid.mapRbegin, Grid.mapRend, between]
  | some a =>
      have take : (maps.reverse ++ [a]).take maps.length = maps.reverse := by
        rw [List.take_append_of_le_length (by simp)]
        simp
      simp [Grid.mapsBackward, Grid.mapRbegin, Grid.mapRend, between, take]

theorem components (rep : Represents g p) : g.components false = some p.vars.length := by
  rw [rep.eq]
  rfl

/-- The iterators of the maps are right while there is no array; with an array the last map is not found. -/
theorem each_iff (rep : Represents g p) :
    (∀ i < p.maps.length, at_ g.vars (g.getMapIter i) = p.maps[i]?) ↔ p.array = none ∨ p.maps = [] := by
  obtain ⟨array, maps⟩ := p
  rw [rep.eq]
  cases array with
  | none => simp [Grid.getMapIter, Grid.mapBegin, at_]
  | some a =>
      constructor
      · intro each
        refine .inr ?_
        by_contra some_
        have pos : 0 < maps.length := List.length_pos_iff.mpr some_
        have last := each (maps.length - 1) (Nat.sub_lt pos Nat.one_pos)
        have past : (1 + 1 + ((maps.length - 1 : Nat) : Int)).toNat = maps.length + 1 := by omega
        simp only [Grid.getMapIter, Grid.mapBegin, at_, Option.isSome_some, if_true, past, Parts.vars_some] at last
        rw [if_pos (by omega), List.getElem?_eq_none (by simp), eq_comm, List.getElem?_eq_none_iff] at last
        omega
      · intro none_
        have empty : maps = [] := by simpa using none_
        simp [empty]

theorem agrees_iff (rep : Represents g p) : Agrees g p ↔ p.array = none ∨ p.maps = [] := by
  rw [← rep.each_iff]
  constructor
  · intro agrees
    exact agrees.each
  · intro each
    exact ⟨rep.vars, rep.arrayVar, rep.getArray, rep.forward, rep.backward, each, rep.components⟩

/-! ## Change -/

theorem setArray (rep : Represents g p) (a : ArrayPtr) (returned : (g.setArray (some a)).state = some g') :
    Represents g' { p with array := some a.1 } := by
  have got := rep.getArray
  have arrays : ∀ v ∈ a.1 :: p.maps, v.isArray = true := by
    intro v mem
    cases mem with
    | head => exact a.2
    | tail _ mem => exact rep.arrays v (List.mem_append_right _ mem)
  have result : Represents ⟨true, a.1 :: p.maps⟩ { p with array := some a.1 } := ⟨rfl, rfl, arrays⟩
  suffices same : g' = ⟨true, a.1 :: p.maps⟩ from same ▸ result
  rw [Grid.setArray, got] at returned
  obtain ⟨array, maps⟩ := p
  rw [rep.eq] at returned
  cases array with
  | none =>
      simp only [reduceCtorEq, if_false, Option.isSome_none, if_true, Parts.vars_none] at returned
      split at returned
      · cases returned
        simp_all
      · exact (Option.some.inj returned).symm
  | some b =>
      simp only [Option.isSome_some, Parts.vars_some, reduceCtorEq, if_false, Bool.true_eq_false] at returned
      split at returned
      · cases returned
        simp_all
      · exact (Option.some.inj returned).symm

theorem pushBack (rep : Represents g p) (a : ArrayPtr) :
    Represents (g.pushBack a.1) { p with maps := p.maps ++ [a.1] } := by
  obtain ⟨vars, flag, arrays⟩ := rep
  refine ⟨?_, flag, ?_⟩
  · simp [Grid.pushBack, vars, Parts.vars]
  · intro v mem
    rw [Parts.vars, ← List.append_assoc] at mem
    cases List.mem_append.mp mem with
    | inl mem => exact arrays v mem
    | inr mem =>
        cases List.mem_singleton.mp mem
        exact a.2

theorem add (rep : Represents g p) {bt : Option Variable} {part : Part} {new : Option Nat}
    (returned : (g.add bt part new).state = some g') : Represents g' (p.add bt part new) := by
  have flag := rep.flag
  cases bt with
  | none =>
      cases returned
      exact rep
  | some bt =>
      simp only [Grid.add] at returned
      simp only [Parts.add]
      split at returned
      next twice =>
        obtain ⟨rfl, set⟩ := twice
        cases returned
        cases array : p.array with
        | none => simp [flag, array] at set
        | some a =>
            split
            · exact rep
            · exact rep
      next once =>
        split at returned
        next isArray =>
          rw [dif_pos isArray]
          cases part with
          | array =>
              have set := rep.setArray _ returned
              cases array : p.array with
              | none => exact set
              | some a => exact absurd ⟨rfl, by simp [flag, array]⟩ once
          | maps =>
              cases returned
              exact rep.pushBack _
          | nil =>
              cases array : p.array with
              | none =>
                  rw [if_pos (by simp [flag, array])] at returned
                  exact rep.setArray _ returned
              | some a =>
                  rw [if_neg (by simp [flag, array])] at returned
                  cases returned
                  have pushed := rep.pushBack (ArrayPtr.kept ⟨bt, isArray⟩ new)
                  rwa [array] at pushed
        next isArray =>
          rw [dif_neg isArray]
          cases returned
          exact rep

theorem prependMap (rep : Represents g p) (a : ArrayPtr) (new : Option Nat)
    (returned : (g.prependMap (some a) new).state = some g') :
    Represents g' { p with maps := (a.kept new).1 :: p.maps } := by
  have arrays : ∀ v ∈ Parts.vars { p with maps := (a.kept new).1 :: p.maps }, v.isArray = true := by
    intro v mem
    cases List.mem_append.mp mem with
    | inl mem => exact rep.arrays v (List.mem_append_left _ mem)
    | inr mem =>
        cases mem with
        | head => exact (a.kept new).2
        | tail _ mem => exact rep.arrays v (List.mem_append_right _ mem)
  suffices same : g' = ⟨p.array.isSome, Parts.vars { p with maps := (a.kept new).1 :: p.maps }⟩ from
    same ▸ of_parts arrays
  simp only [Grid.prependMap] at returned
  split at returned
  · cases returned
    obtain ⟨array, maps⟩ := p
    rw [rep.eq]
    cases array <;> simp [Grid.mapBegin]
  · cases returned

/-- What is left after a variable is gone is made of arrays. -/
theorem of_sublist (rep : Represents g p) (sub : q.vars.Sublist p.vars)
    (same : g' = ⟨q.array.isSome, q.vars⟩) : Represents g' q :=
  same ▸ of_parts fun v mem => rep.arrays v (sub.subset mem)

theorem delVar (rep : Represents g p) {n : String} (spares : (Op.delVar n).Spares p)
    (returned : (g.delVar n).state = some g') : Represents g' (p.apply (.delVar n)) := by
  cases returned
  obtain ⟨array, maps⟩ := p
  cases array with
  | none =>
      refine rep.of_sublist List.eraseP_sublist ?_
      rw [rep.eq]
      rfl
  | some a =>
      have other : a.name ≠ n := spares a rfl
      have meant : Parts.apply ⟨some a, maps⟩ (.delVar n) = ⟨some a, maps.eraseP (·.name == n)⟩ :=
        if_neg other
      rw [meant]
      refine rep.of_sublist (List.eraseP_sublist.cons_cons a) ?_
      rw [rep.eq]
      simp [other]

theorem delVarAt (rep : Represents g p) {i : Nat} (spares : (Op.delVarAt i).Spares p)
    (returned : (g.delVarAt i).state = some g') : Represents g' (p.apply (.delVarAt i)) := by
  rw [Grid.delVarAt] at returned
  split at returned
  · cases returned
    obtain ⟨array, maps⟩ := p
    cases array with
    | none =>
        refine rep.of_sublist (List.eraseIdx_sublist ..) ?_
        rw [rep.eq]
        rfl
    | some a =>
        cases i with
        | zero => exact absurd rfl (spares rfl)
        | succ i =>
            refine rep.of_sublist ((List.eraseIdx_sublist ..).cons_cons a) ?_
            rw [rep.eq]
            rfl
  · cases returned

/-- Every call that deletes no array changes the Grid as it changes the parts. -/
theorem apply (rep : Represents g p) {op : Op} (spares : op.Spares p)
    (returned : (op.apply g).state = some g') : Represents g' (p.apply op) := by
  cases op with
  | setArray a =>
      cases a with
      | none =>
          cases returned
          exact rep
      | some a => exact rep.setArray a returned
  | addVar bt part new => exact rep.add returned
  | addVarNocopy bt part => exact rep.add returned
  | addMap a new =>
      cases a with
      | none =>
          cases returned
          exact rep
      | some a =>
          cases returned
          exact rep.pushBack _
  | prependMap a new =>
      cases a with
      | none => cases returned
      | some a => exact rep.prependMap a new returned
  | delVar n => exact rep.delVar spares returned
  | delVarAt i => exact rep.delVarAt spares returned

theorem copy (rep : Represents g p) (new : Nat → Nat) : Represents (g.copy new) (p.copy new) := by
  obtain ⟨vars, flag, arrays⟩ := rep
  have same : (g.copy new).vars = (p.copy new).vars := by
    obtain ⟨array, maps⟩ := p
    rw [Grid.copy, vars]
    cases array with
    | none => simp [Parts.copy]
    | some a => simp [Parts.copy, List.mapIdx_cons, Nat.add_comm]
  refine ⟨same, ?_, ?_⟩
  · rw [Parts.copy, Option.isSome_map]
    exact flag
  · intro v mem
    rw [← same, Grid.copy, vars] at mem
    obtain ⟨i, inside, rfl⟩ := List.mem_mapIdx.mp mem
    exact arrays (p.vars[i]) (List.getElem_mem inside)

end Represents

theorem Reached.represents {g : Grid} {p : Parts} (reached : Reached (fun p op => op.Spares p) g p) :
    Represents g p := by
  induction reached with
  | made => exact .made
  | call before op ok returned ih => exact ih.apply ok returned
  | copied before new ih => exact ih.copy new
  | assigned before other new _ ih => exact ih.copy new

/-- While no array is deleted, a Grid is represented right, and every access finds its parts as long as it
    does not have both an array and a map. -/
theorem grid_agrees_iff {g : Grid} {p : Parts} (reached : Reached (fun p op => op.Spares p) g p) :
    Represents g p ∧ (Agrees g p ↔ p.array = none ∨ p.maps = []) :=
  ⟨reached.represents, reached.represents.agrees_iff⟩

/-- An array and a map as a parser adds them. -/
def station : ArrayPtr := ⟨⟨1, "station", .array (Array.create.appendDim 3)⟩, rfl⟩

def depth : ArrayPtr := ⟨⟨2, "depth", .array (Array.create.appendDim 3)⟩, rfl⟩

theorem grid_agrees_array_only :
    Agrees ⟨true, [depth.1]⟩ ⟨some depth.1, []⟩ := by
  have first : Reached (fun p op => op.Spares p) ⟨false, [station.1]⟩ ⟨none, [station.1]⟩ :=
    .call .made (.addVarNocopy (some station.1) .maps) trivial rfl
  have second : Reached (fun p op => op.Spares p) ⟨false, []⟩ ⟨none, []⟩ :=
    .call first (.delVar "station") (by simp [Op.Spares]) rfl
  have third : Reached (fun p op => op.Spares p) ⟨true, [depth.1]⟩ ⟨some depth.1, []⟩ :=
    .call second (.addVarNocopy (some depth.1) .nil) trivial rfl
  exact (grid_agrees_iff third).2.mpr (.inr rfl)

theorem grid_map_iter_skips : ¬ ∀ g p, Reached (fun _ _ => True) g p → Agrees g p := by
  intro all
  have first : Reached (fun _ _ => True) ⟨true, [station.1]⟩ ⟨some station.1, []⟩ :=
    .call .made (.addVarNocopy (some station.1) .nil) trivial rfl
  have second : Reached (fun _ _ => True) ⟨true, [station.1, depth.1]⟩ ⟨some station.1, [depth.1]⟩ :=
    .call first (.addVarNocopy (some depth.1) .nil) trivial rfl
  have each := (all _ _ second).each 0 Nat.one_pos
  cases each

/-- Where the array is deleted the flag stays, so that the first map passes for the array. -/
theorem delVarAt_array {g : Grid} {p : Parts} (rep : Represents g p) {a : Variable} (array : p.array = some a) :
    g.delVarAt 0 = .done ⟨true, p.maps⟩ ∧ ¬ Agrees ⟨true, p.maps⟩ { p with array := none } := by
  obtain ⟨array', maps⟩ := p
  subst array
  rw [rep.eq]
  refine ⟨rfl, ?_⟩
  intro agrees
  have found := agrees.arrayVar
  cases maps <;> simp [Grid.arrayVar] at found

end Libdap.Dap2.Grids
