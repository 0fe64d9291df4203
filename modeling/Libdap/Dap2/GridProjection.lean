import Libdap.Dap2.GridInvariant

/-! # A projected Grid that stays one

`Grid::projection_yields_grid` walks the dimensions of the array and the maps side by side.
A dimension that selects nothing, or whose map is not sent or is constrained otherwise, ends
the walk.
-/

namespace Libdap.Dap2.Grids

/-- `dimension_start`, `dimension_stop` and `dimension_stride` of the first dimension. -/
def first (a : Array) (field : Dimension → Int) : Int := (a.shape.head?.map field).getD 0

/-- The map is constrained as the dimension is. -/
def Matches (d : Dimension) (map : Array) : Prop :=
  first map Dimension.start = d.start ∧ first map Dimension.stop = d.stop ∧
    first map Dimension.stride = d.stride

instance (d : Dimension) (map : Array) : Decidable (Matches d map) := inferInstanceAs (Decidable (_ ∧ _))

/-- The loop. There is no result where a map is no array, which `dynamic_cast` throws for. -/
def walk : List Dimension → List Variable → Option Bool
  | d :: dims, m :: maps =>
      match m.array? with
      | none => none
      | some map => if (d.cSize ≠ 0 ∧ map.sendP = true) ∧ Matches d map then walk dims maps else some false
  | _, _ => some true

namespace Grid

/-- `projection_yields_grid`. There is no result where the code follows a null pointer. -/
def projectionYieldsGrid (g : Grid) : Option Bool :=
  match g.getArray, g.mapsForward with
  | some (some v), some maps =>
      match v.array? with
      | none => none
      | some a =>
          if a.sendP = false then some false
          else if g.components true = some 1 then some false
          else walk a.shape maps
  | _, _ => none

end Grid

/-- A Grid with this array and these maps that passes its semantic check. -/
structure Checked (g : Grid) (a : Array) (ms : List Array) : Prop where
  set : g.isArraySet = true
  vars : g.vars.map Variable.array? = some a :: ms.map some
  rank : 1 ≤ a.shape.length
  count : ms.length = a.shape.length
  oneDim : ∀ m ∈ ms, m.shape.length = 1
  sizes : ∀ (i : Nat) (d : Dimension) (m : Array), a.shape[i]? = some d → ms[i]? = some m →
    0 < d.size ∧ first m Dimension.size = d.size

/-- The projected parts are an array and, for each of its dimensions, a map with the same constraint. -/
def StillGrid (a : Array) (ms : List Array) : Prop :=
  a.sendP = true ∧ ∀ (i : Nat) (d : Dimension) (m : Array), a.shape[i]? = some d → ms[i]? = some m →
    m.sendP = true ∧ ∃ e, m.shape = [e] ∧ e.start = d.start ∧ e.stride = d.stride ∧ e.stop = d.stop

/-- Every dimension of the array selects something. -/
def SelectsSome (a : Array) : Prop := ∀ d ∈ a.shape, d.cSize ≠ 0

theorem matches_iff {d : Dimension} {m : Array} (oneDim : m.shape.length = 1) :
    Matches d m ↔ ∃ e, m.shape = [e] ∧ e.start = d.start ∧ e.stride = d.stride ∧ e.stop = d.stop := by
  obtain ⟨e, one⟩ := List.length_eq_one_iff.mp oneDim
  simp only [Matches, first, one, List.head?_cons, Option.map_some, Option.getD_some, List.cons.injEq, and_true,
    exists_eq_left']
  constructor
  · intro ⟨start, stop, stride⟩
    exact ⟨start, stride, stop⟩
  · intro ⟨start, stride, stop⟩
    exact ⟨start, stop, stride⟩

/-- The walk compares each dimension with the map at its place. -/
theorem walk_eq {dims : List Dimension} {maps : List Variable} {ms : List Array}
    (arrays : maps.map Variable.array? = ms.map some) :
    ∃ b, walk dims maps = some b ∧
      (b = true ↔ ∀ (i : Nat) (d : Dimension) (m : Array), dims[i]? = some d → ms[i]? = some m →
        (d.cSize ≠ 0 ∧ m.sendP = true) ∧ Matches d m) := by
  fun_induction walk dims maps generalizing ms with
  | case1 d dims m maps none_ =>
      cases ms with
      | nil => simp at arrays
      | cons a ms => simp [none_] at arrays
  | case2 d dims m maps map found ok ih =>
      cases ms with
      | nil => simp at arrays
      | cons a ms =>
          simp only [List.map_cons, found, List.cons.injEq, Option.some.injEq] at arrays
          obtain ⟨same, arrays⟩ := arrays
          subst same
          obtain ⟨b, result, iff⟩ := ih arrays
          refine ⟨b, result, iff.trans ?_⟩
          constructor
          · intro rest i e n dim here
            cases i with
            | zero =>
                cases dim
                cases here
                exact ok
            | succ i => exact rest i e n dim here
          · intro all i e n dim here
            exact all (i + 1) e n dim here
  | case3 d dims m maps map found bad =>
      cases ms with
      | nil => simp at arrays
      | cons a ms =>
          simp only [List.map_cons, found, List.cons.injEq, Option.some.injEq] at arrays
          obtain ⟨same, -⟩ := arrays
          subst same
          refine ⟨false, rfl, ?_⟩
          constructor
          · intro no
            cases no
          · intro all
            exact absurd (all 0 d map rfl rfl) bad
  | case4 dims maps ends =>
      refine ⟨true, rfl, ?_⟩
      constructor
      · intro _ i d m dim here
        exfalso
        cases dims with
        | nil => simp at dim
        | cons e dims =>
            cases maps with
            | nil =>
                have empty : ms = [] := by simpa using arrays.symm
                simp [empty] at here
            | cons v maps => exact ends e dims v maps rfl rfl
      · intro _
        rfl

theorem sendP_of_array {v : Variable} {a : Array} (array : v.array? = some a) : v.sendP = a.sendP := by
  obtain ⟨address, name, body⟩ := v
  cases body with
  | array b =>
      cases array
      rfl
  | other sendP => cases array

/-- One part is sent where the array is and no map is. -/
theorem countP_sendP_eq_zero {maps : List Variable} {ms : List Array}
    (arrays : maps.map Variable.array? = ms.map some) :
    maps.countP Variable.sendP = 0 ↔ ∀ m ∈ ms, m.sendP = false := by
  induction maps generalizing ms with
  | nil =>
      have empty : ms = [] := by simpa using arrays.symm
      simp [empty]
  | cons v maps ih =>
      cases ms with
      | nil => simp at arrays
      | cons m ms =>
          obtain ⟨here, arrays⟩ := List.cons.inj arrays
          rw [List.countP_cons, sendP_of_array here, List.forall_mem_cons, ← ih arrays]
          cases m.sendP <;> simp

theorem Checked.parts {g : Grid} {a : Array} {ms : List Array} (checked : Checked g a ms) :
    ∃ v maps, g = ⟨true, v :: maps⟩ ∧ v.array? = some a ∧ maps.map Variable.array? = ms.map some := by
  obtain ⟨set, vars, -, -, -, -⟩ := checked
  obtain ⟨flag, all⟩ := g
  subst set
  cases all with
  | nil => simp at vars
  | cons v maps =>
      obtain ⟨array, arrays⟩ := List.cons.inj vars
      exact ⟨v, maps, rfl, array, arrays⟩

theorem getArray_of_array {v : Variable} {a : Array} (array : v.array? = some a) (maps : List Variable) :
    (Grid.mk true (v :: maps)).getArray = some (some v) := by
  have isArray : v.isArray = true := by simp [Variable.isArray, array]
  simp [Grid.getArray, Grid.arrayVar, isArray]

theorem mapsForward_of_array (v : Variable) (maps : List Variable) :
    (Grid.mk true (v :: maps)).mapsForward = some maps := by
  simp [Grid.mapsForward, Grid.mapBegin, Grid.mapEnd, between]

/-- The parts that are sent of a Grid whose array is. -/
theorem components_eq {v : Variable} {a : Array} (array : v.array? = some a) (sent : a.sendP = true)
    (maps : List Variable) :
    (Grid.mk true (v :: maps)).components true = some (1 + maps.countP Variable.sendP) := by
  have sendP : v.sendP = true := (sendP_of_array array).trans sent
  simp only [Grid.components, if_true, getArray_of_array array, mapsForward_of_array, sendP]

theorem projectionYieldsGrid_eq {v : Variable} {a : Array} (array : v.array? = some a) (maps : List Variable) :
    (Grid.mk true (v :: maps)).projectionYieldsGrid =
      if a.sendP = false then some false
      else if (Grid.mk true (v :: maps)).components true = some 1 then some false
      else Grids.walk a.shape maps := by
  simp only [Grid.projectionYieldsGrid, getArray_of_array array, mapsForward_of_array, array]

theorem exists_map {a : Array} {ms : List Array} (rank : 1 ≤ a.shape.length)
    (count : ms.length = a.shape.length) : ∃ d m, a.shape[0]? = some d ∧ ms[0]? = some m :=
  ⟨_, _, List.getElem?_eq_getElem (by omega), List.getElem?_eq_getElem (by omega)⟩

/-- The result is there, and says whether the parts are still a Grid that selects something in every
    dimension. -/
theorem projection_yields_grid_iff {g : Grid} {a : Array} {ms : List Array} (checked : Checked g a ms) :
    ∃ b, g.projectionYieldsGrid = some b ∧ (b = true ↔ StillGrid a ms ∧ SelectsSome a) := by
  obtain ⟨v, maps, rfl, array, arrays⟩ := checked.parts
  obtain ⟨d, m, dim, here⟩ := exists_map checked.rank checked.count
  rw [projectionYieldsGrid_eq array]
  split
  next unsent =>
    refine ⟨false, rfl, ?_⟩
    simp [StillGrid, unsent]
  next sent =>
    have sent : a.sendP = true := by simpa using sent
    rw [components_eq array sent]
    split
    next alone =>
      refine ⟨false, rfl, ?_⟩
      have none_ : maps.countP Variable.sendP = 0 := by
        have one := Option.some.inj alone
        omega
      have unsent := (countP_sendP_eq_zero arrays).mp none_ m (List.mem_of_getElem? here)
      refine iff_of_false (by simp) ?_
      intro ⟨still, _⟩
      simp [(still.2 0 d m dim here).1] at unsent
    next several =>
      obtain ⟨b, result, iff⟩ := @walk_eq a.shape maps ms arrays
      refine ⟨b, result, iff.trans ?_⟩
      constructor
      · intro all
        refine ⟨⟨sent, ?_⟩, ?_⟩
        · intro i e n dim here
          obtain ⟨⟨-, map⟩, same⟩ := all i e n dim here
          exact ⟨map, (matches_iff (checked.oneDim n (List.mem_of_getElem? here))).mp same⟩
        · intro e mem
          obtain ⟨i, inside, rfl⟩ := List.mem_iff_getElem.mp mem
          have map := List.getElem?_eq_getElem (l := ms) (i := i) (by rw [checked.count]; exact inside)
          exact (all i _ _ (List.getElem?_eq_getElem inside) map).1.1
      · intro ⟨still, selects⟩ i e n dim here
        obtain ⟨map, same⟩ := still.2 i e n dim here
        exact ⟨⟨selects e (List.mem_of_getElem? dim), map⟩,
          (matches_iff (checked.oneDim n (List.mem_of_getElem? here))).mpr same⟩

/-- An array of five and its map, with one constraint on both. -/
def both (start stride stop : Int) : Array :=
  { (Array.create.appendDim 5).mutate (.addConstraint 0 start stride stop) with sendP := true }

def grid (start stride stop : Int) : Grid :=
  ⟨true, [⟨1, "v", .array (both start stride stop)⟩, ⟨2, "x", .array (both start stride stop)⟩]⟩

theorem grid_checked (start stride stop : Int) (shape : ∃ d, (both start stride stop).shape = [d] ∧ d.size = 5) :
    Checked (grid start stride stop) (both start stride stop) [both start stride stop] := by
  obtain ⟨d, shape, five⟩ := shape
  refine ⟨rfl, rfl, by simp [shape], by simp [shape], by simp [shape], ?_⟩
  intro i e m dim here
  cases i with
  | zero =>
      cases here
      rw [shape] at dim
      cases dim
      simp [first, shape, five]
  | succ i => simp at here

theorem strided_yields_grid :
    ∃ b, (grid 0 2 4).projectionYieldsGrid = some b ∧
      (b = true ↔ StillGrid (both 0 2 4) [both 0 2 4] ∧ SelectsSome (both 0 2 4)) :=
  projection_yields_grid_iff (grid_checked 0 2 4 ⟨_, rfl, rfl⟩)

theorem backward_yields_no_grid :
    ¬ ∀ g a ms, Checked g a ms → (g.projectionYieldsGrid = some true ↔ StillGrid a ms) := by
  intro all
  have result : (grid 3 1 2).projectionYieldsGrid = some false := by decide
  have still : StillGrid (both 3 1 2) [both 3 1 2] := by
    refine ⟨rfl, ?_⟩
    intro i d m dim here
    cases i with
    | zero =>
        cases here
        cases dim
        exact ⟨rfl, _, rfl, rfl, rfl, rfl⟩
    | succ i => simp at here
  have yes := (all _ _ _ (grid_checked 3 1 2 ⟨_, rfl, rfl⟩)).mpr still
  rw [result] at yes
  cases yes

end Libdap.Dap2.Grids
