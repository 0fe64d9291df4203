import Libdap.Dap2.Constraint

/-! # What a constraint changes

An expression that is read to its end has the effects of its clauses, one after the other.
-/

namespace Libdap.Dap2

open Dap4 (Name BaseType)

/-! ## Index lists on arrays -/

namespace Dimension

@[simp]
theorem size_apply (d : Dimension) (ix : Index) : (d.apply ix).size = d.size := rfl

/-- What an index leaves of a dimension is its size. -/
@[simp]
theorem apply_apply (d : Dimension) (ix ix' : Index) : (d.apply ix).apply ix' = d.apply ix' := rfl

@[simp]
theorem reset_apply (d : Dimension) (ix : Index) : d.reset.apply ix = d.apply ix := rfl

end Dimension

theorem zipWith_apply_apply {shape : List Dimension} {ixs ixs' : List Index} (len : ixs.length = shape.length) :
    List.zipWith Dimension.apply (List.zipWith Dimension.apply shape ixs) ixs' =
      List.zipWith Dimension.apply shape ixs' := by
  induction shape generalizing ixs ixs' with
  | nil => rfl
  | cons d shape ih =>
      cases ixs with
      | nil => cases len
      | cons ix ixs =>
          cases ixs' with
          | nil => rfl
          | cons ix' ixs' =>
              simp only [List.zipWith_cons_cons, Dimension.apply_apply]
              rw [ih (Nat.succ.inj len)]

theorem shape_processArraySlices {a b : Array} {ixs : List Index}
    (ok : processArraySlices a (ixs.map Index.slice) = .ok b) :
    ixs.length = a.shape.length ∧ b.shape = List.zipWith Dimension.apply a.shape ixs := by
  obtain ⟨len, len', applied⟩ := processArraySlices_ok ok
  refine ⟨len'.symm, ?_⟩
  apply List.ext_getElem?
  intro j
  rw [List.getElem?_zipWith]
  cases at_ : ixs[j]? with
  | none =>
      have past : ixs.length ≤ j := List.getElem?_eq_none_iff.mp at_
      rw [List.getElem?_eq_none (by omega)]
      cases a.shape[j]? <;> rfl
  | some ix =>
      obtain ⟨d, there, _, applied⟩ := applied j ix at_
      rw [applied, there]

namespace CeParser

/-! ## Effects -/

inductive Effect where
  | mark (ids : List Nat)
  | select (ids : List Nat)
  | dims (id : Nat) (ixs : List Index)
  | rows (id : Nat) (ix : Index)
  | constant (c : ConstArray)
  | clause (c : Clause)

namespace Effect

def marked : Effect → List Nat
  | mark ids => ids
  | _ => []

def selected : Effect → List Nat
  | select ids => ids
  | _ => []

def constant? : Effect → Option ConstArray
  | constant c => some c
  | _ => none

def clause? : Effect → Option Clause
  | clause c => some c
  | _ => none

def dims? (x : Nat) : Effect → Option (List Index)
  | dims id ixs => if id = x then some ixs else none
  | _ => none

def rows? (x : Nat) : Effect → Option Index
  | rows id ix => if id = x then some ix else none
  | _ => none

end Effect

/-- The last list of indices for an array. -/
def lastDims (x : Nat) (es : List Effect) : Option (List Index) := es.reverse.findSome? (Effect.dims? x)

def lastRows (x : Nat) (es : List Effect) : Option Index := es.reverse.findSome? (Effect.rows? x)

theorem mem_of_lastDims {x : Nat} {es : List Effect} {ixs : List Index} (last : lastDims x es = some ixs) :
    .dims x ixs ∈ es := by
  obtain ⟨e, mem, is⟩ := List.exists_of_findSome?_eq_some last
  unfold Effect.dims? at is
  split at is
  · split at is
    · rename_i same
      cases is
      rw [same] at mem
      exact List.mem_reverse.mp mem
    · cases is
  · cases is

theorem lastDims_append (x : Nat) (es es' : List Effect) :
    lastDims x (es ++ es') = (lastDims x es').or (lastDims x es) := by
  rw [lastDims, List.reverse_append, List.findSome?_append, lastDims, lastDims]

theorem lastRows_append (x : Nat) (es es' : List Effect) :
    lastRows x (es ++ es') = (lastRows x es').or (lastRows x es) := by
  rw [lastRows, List.reverse_append, List.findSome?_append, lastRows, lastRows]

def shapeAfter (shape : List Dimension) : Option (List Index) → List Dimension
  | none => shape
  | some ixs => List.zipWith Dimension.apply shape ixs

/-- The numbers of an index as `int`s. -/
def rowsOf (ix : Index) : Rows := ⟨ix.start, ix.stop, ix.stride⟩

/-- The second state is the first with the effects, of which the last one on an array or Sequence is the one
    that counts. -/
structure Follows (s : State) (es : List Effect) (s' : State) : Prop where
  marked : s'.marked = s.marked ++ es.flatMap Effect.marked
  in_selection : s'.in_selection = s.in_selection ++ es.flatMap Effect.selected
  constants : s'.constants = s.constants ++ es.filterMap Effect.constant?
  expr : s'.expr = s.expr ++ es.filterMap Effect.clause?
  arrays : ∀ x, (s'.arrays x).shape = shapeAfter (s.arrays x).shape (lastDims x es)
  ranks : ∀ x ixs, .dims x ixs ∈ es → ixs.length = (s.arrays x).shape.length
  rows : ∀ x, s'.rows x = ((lastRows x es).map rowsOf).or (s.rows x)

namespace Follows

theorem nothing (s : State) : Follows s [] s where
  marked := (List.append_nil _).symm
  in_selection := (List.append_nil _).symm
  constants := (List.append_nil _).symm
  expr := (List.append_nil _).symm
  arrays _ := rfl
  ranks _ _ mem := by simp at mem
  rows _ := rfl

/-- The dimensions keep their sizes, which are all that another list of indices needs. -/
theorem sized {s s' : State} {es : List Effect} (follows : Follows s es s') (x : Nat) (ixs : List Index) :
    (s'.arrays x).shape.length = (s.arrays x).shape.length ∧
      List.zipWith Dimension.apply (s'.arrays x).shape ixs = List.zipWith Dimension.apply (s.arrays x).shape ixs := by
  rw [follows.arrays x]
  cases last : lastDims x es with
  | none => exact ⟨rfl, rfl⟩
  | some ixs' =>
      have rank := follows.ranks x ixs' (mem_of_lastDims last)
      exact ⟨by rw [shapeAfter, List.length_zipWith, rank, Nat.min_self], zipWith_apply_apply rank⟩

theorem append {s s' s'' : State} {es es' : List Effect} (first : Follows s es s') (second : Follows s' es' s'') :
    Follows s (es ++ es') s'' where
  marked := by rw [second.marked, first.marked, List.flatMap_append, List.append_assoc]
  in_selection := by rw [second.in_selection, first.in_selection, List.flatMap_append, List.append_assoc]
  constants := by rw [second.constants, first.constants, List.filterMap_append, List.append_assoc]
  expr := by rw [second.expr, first.expr, List.filterMap_append, List.append_assoc]
  arrays x := by
    rw [lastDims_append, second.arrays x, first.arrays x]
    cases later : lastDims x es' with
    | none => rfl
    | some ixs' =>
        cases earlier : lastDims x es with
        | none => rfl
        | some ixs => exact zipWith_apply_apply (first.ranks x ixs (mem_of_lastDims earlier))
  ranks x ixs mem := by
    rcases List.mem_append.mp mem with mem | mem
    · exact first.ranks x ixs mem
    · rw [second.ranks x ixs mem, (first.sized x []).1]
  rows x := by
    rw [lastRows_append, second.rows x, first.rows x]
    cases lastRows x es' <;> rfl

/-! The effects one by one. -/

theorem mark (ids : List Nat) (s : State) : Follows s [.mark ids] (s.mark ids) where
  marked := by rw [List.flatMap_singleton]; rfl
  in_selection := (List.append_nil _).symm
  constants := (List.append_nil _).symm
  expr := (List.append_nil _).symm
  arrays _ := rfl
  ranks _ _ mem := by simp at mem
  rows _ := rfl

theorem select (ids : List Nat) (s : State) : Follows s [.select ids] (s.select ids) where
  marked := (List.append_nil _).symm
  in_selection := by rw [List.flatMap_singleton]; rfl
  constants := (List.append_nil _).symm
  expr := (List.append_nil _).symm
  arrays _ := rfl
  ranks _ _ mem := by simp at mem
  rows _ := rfl

theorem constant (c : ConstArray) (s : State) : Follows s [.constant c] (s.addConstant c) where
  marked := (List.append_nil _).symm
  in_selection := (List.append_nil _).symm
  constants := rfl
  expr := (List.append_nil _).symm
  arrays _ := rfl
  ranks _ _ mem := by simp at mem
  rows _ := rfl

theorem clause (c : Clause) (s : State) : Follows s [.clause c] (s.append_clause c) where
  marked := (List.append_nil _).symm
  in_selection := (List.append_nil _).symm
  constants := (List.append_nil _).symm
  expr := rfl
  arrays _ := rfl
  ranks _ _ mem := by simp at mem
  rows _ := rfl

theorem dims {id : Nat} {ixs : List Index} {a : Array} {s : State} (len : ixs.length = (s.arrays id).shape.length)
    (shape : a.shape = List.zipWith Dimension.apply (s.arrays id).shape ixs) :
    Follows s [.dims id ixs] (s.setArray id a) where
  marked := (List.append_nil _).symm
  in_selection := (List.append_nil _).symm
  constants := (List.append_nil _).symm
  expr := (List.append_nil _).symm
  arrays x := by
    by_cases same : x = id
    · subst same
      simp [State.setArray, lastDims, Effect.dims?, shapeAfter, shape]
    · simp [State.setArray, lastDims, Effect.dims?, shapeAfter, same, Ne.symm same]
  ranks x ixs' mem := by
    cases List.mem_singleton.mp mem
    exact len
  rows _ := rfl

theorem setRows {id : Nat} {ix : Index} (s : State) : Follows s [.rows id ix] (s.setRows id (rowsOf ix)) where
  marked := (List.append_nil _).symm
  in_selection := (List.append_nil _).symm
  constants := (List.append_nil _).symm
  expr := (List.append_nil _).symm
  arrays _ := rfl
  ranks _ _ mem := by simp at mem
  rows x := by
    by_cases same : x = id
    · subst same
      simp [State.setRows, lastRows, Effect.rows?]
    · simp [State.setRows, lastRows, Effect.rows?, same, Ne.symm same]

end Follows

section

variable (dds : List BaseType)

/-- What is marked for a name. -/
def marks (name : Name) : List Nat := (Dds.mark dds name).toOption.getD []

def rowEffects (id : Nat) : List Index → List Effect
  | [ix] => [.rows id ix]
  | _ => []

/-- The lists of indices that the arrays of a Grid get. -/
def gridEffects (data : Nat) (maps : List Nat) (ixs : List Index) : List Effect :=
  .dims data ixs :: (maps.zip ixs).map fun m => .dims m.1 [m.2]

def bracketEffects (name : Name) (ixs : List Index) : List Effect :=
  match target dds name with
  | none => []
  | some (.array id) => [.dims id ixs]
  | some (.grid data maps) => gridEffects data maps ixs ++ [.mark (marks dds name)]
  | some (.sequence id) => .mark (marks dds name) :: rowEffects id ixs
  | some (.field id) => rowEffects id ixs ++ [.mark (marks dds name)]

/-! ## Index lists -/

/-- The number that is written for the end; a star is none. -/
def stopNumber : Index → Option Nat
  | .single n | .range _ n | .strided _ _ n => some n.toNat
  | .all | .onward _ | .stridedOnward _ _ => none

/-- There is something to apply the list to. A Sequence takes one index, without a star. -/
def Sliceable (name : Name) (ixs : List Index) : Prop :=
  match target dds name with
  | none => False
  | some (.array _) | some (.grid ..) => True
  | some (.sequence _) | some (.field _) => ∃ ix, ixs = [ix] ∧ (stopNumber ix).isSome

theorem mark_ok {name : Name} {ids : List Nat} (ok : Dds.mark dds name = .ok ids) :
    marks dds name = ids ∧ ∃ b, (Dds.var dds name).1 = some b ∧ ∀ x ∈ b.ids, x ∈ ids := by
  refine ⟨by rw [marks, ok]; rfl, ?_⟩
  unfold Dds.mark at ok
  split at ok
  · cases ok
  · rename_i b stack found
    cases ok
    exact ⟨b, by rw [found], fun x mem => List.mem_append_left _ mem⟩

variable {dds}

theorem follows_process_sequence_slices {id : Nat} {ixs : List Index} {s s' : State}
    (ok : process_sequence_slices id (ixs.map Index.slice) s = .ok s') :
    (∃ ix, ixs = [ix] ∧ (stopNumber ix).isSome) ∧ Follows s (rowEffects id ixs) s' := by
  match ixs, ok with
  | [], ok => cases ok
  | [ix], ok =>
      obtain ⟨first, second, third, slice, start, stride, stop⟩ := ix.slice_eq
      rw [List.map_singleton, slice, process_sequence_slices] at ok
      split at ok
      · cases ok
      · rename_i types
        unfold setRowNumberConstraint at ok
        split at ok
        · cases ok
        · cases ok
          rw [Value.i32_ui, Value.i32_ui, Value.i32_ui, start, stride, stop]
          refine ⟨⟨ix, rfl, ?_⟩, Follows.setRows s⟩
          cases ix with
          | single n => rfl
          | range n m => rfl
          | strided n k m => rfl
          | all => cases slice; simp [Value.star] at types
          | onward n => cases slice; simp [Value.star] at types
          | stridedOnward n k => cases slice; simp [Value.star] at types
  | ix :: ix' :: ixs, ok =>
      rw [List.map_cons, List.map_cons, process_sequence_slices] at ok
      · cases ok
      · intro first second third same
        exact absurd (congrArg List.length same) (by simp)

theorem process_grid_slices_ok {array a : Array} {maps as : List Array} {ixs : List Index}
    (ok : process_grid_slices array maps (ixs.map Index.slice) = .ok (a, as)) :
    (ixs.length = array.shape.length ∧ a.shape = List.zipWith Dimension.apply array.shape ixs) ∧
      ∀ (j : Nat) (ix : Index), ixs[j]? = some ix → ∃ m n : Array, maps[j]? = some m ∧ as[j]? = some n ∧
        m.shape.length = 1 ∧ n.shape = List.zipWith Dimension.apply m.shape [ix] := by
  unfold process_grid_slices at ok
  split at ok
  · rename_i oneDim
    unfold processGridIndicialSlices at ok
    split at ok
    · cases ok
    · cases done : processArraySlices array (ixs.map Index.slice) with
      | error e => simp [done, bind, Except.bind] at ok
      | ok b =>
          cases mapped : processMaps (ixs.map Index.slice) (maps.map fun m => { m with sendP := false }) with
          | error e => simp [done, mapped, bind, Except.bind] at ok
          | ok bs =>
              simp only [done, mapped, bind, Except.bind, pure, Except.pure, Except.ok.injEq, Prod.mk.injEq] at ok
              obtain ⟨rfl, rfl⟩ := ok
              refine ⟨shape_processArraySlices done, ?_⟩
              intro j ix at_
              have one : ∀ m ∈ maps.map fun m => { m with sendP := false }, m.shape.length = 1 := by
                intro m mem
                obtain ⟨m', mem', rfl⟩ := List.mem_map.mp mem
                exact oneDim m' mem'
              obtain ⟨m, n, there, there', projected⟩ := (processMaps_ok one mapped).1 j ix at_
              rw [List.getElem?_map] at there
              obtain ⟨m', source, rfl⟩ := Option.map_eq_some_iff.mp there
              obtain ⟨e, shape, _, shape'⟩ := projected.applied
              refine ⟨m', n, source, there', oneDim m' (List.mem_of_getElem? source), ?_⟩
              rw [shape', show m'.shape = [e] from shape]
              rfl
  · cases ok

/-- The maps of a Grid, which are set after its array. -/
theorem follows_setArrays {s : State} {ixs : List Index} {maps : List Nat} {as : List Array}
    (each : ∀ (j : Nat) (ix : Index), ixs[j]? = some ix → ∃ m n, maps[j]? = some m ∧ as[j]? = some n ∧
      (s.arrays m).shape.length = 1 ∧ n.shape = List.zipWith Dimension.apply (s.arrays m).shape [ix])
    {es : List Effect} {s' : State} (follows : Follows s es s') :
    Follows s' ((maps.zip ixs).map fun m => .dims m.1 [m.2]) (s'.setArrays ((maps.zip as).take ixs.length)) := by
  induction ixs generalizing maps as es s' with
  | nil =>
      rw [List.zip_nil_right, List.length_nil, List.take_zero]
      exact Follows.nothing s'
  | cons ix ixs ih =>
      obtain ⟨m, n, first, first', one, shape⟩ := each 0 ix rfl
      cases maps with
      | nil => cases first
      | cons m' maps =>
          cases as with
          | nil => cases first'
          | cons n' as =>
              cases first
              cases first'
              obtain ⟨len, same⟩ := follows.sized m [ix]
              have here : Follows s' [.dims m [ix]] (s'.setArray m n) :=
                Follows.dims (by rw [len, one]; rfl) (by rw [shape, same])
              exact here.append (ih (fun j ix' at_ => each (j + 1) ix' at_) (follows.append here))

theorem follows_bracket_projection {name : Name} {ixs : List Index} {s s' : State}
    (ok : bracket_projection dds name ixs s = .ok s') :
    Sliceable dds name ixs ∧ Follows s (bracketEffects dds name ixs) s' := by
  unfold bracket_projection at ok
  unfold bracketEffects Sliceable
  cases kind : target dds name with
  | none =>
      rw [kind] at ok
      cases ok
  | some t =>
      rw [kind] at ok
      cases t with
      | array id =>
          cases done : processArraySlices (s.array id) (ixs.map Index.slice) with
          | error e => simp [done, bind, Except.bind] at ok
          | ok a =>
              simp only [done, bind, Except.bind, pure, Except.pure, Except.ok.injEq] at ok
              subst ok
              obtain ⟨len, shape⟩ := shape_processArraySlices done
              exact ⟨trivial, Follows.dims len shape⟩
      | grid data maps =>
          cases done : process_grid_slices (s.array data) (maps.map s.array) (ixs.map Index.slice) with
          | error e => simp [done, bind, Except.bind] at ok
          | ok both =>
              obtain ⟨a, as⟩ := both
              cases marked : Dds.mark dds name with
              | error e => simp [done, marked, bind, Except.bind] at ok
              | ok ids =>
                  simp only [done, marked, bind, Except.bind, pure, Except.pure, Except.ok.injEq] at ok
                  subst ok
                  obtain ⟨⟨len, shape⟩, each⟩ := process_grid_slices_ok done
                  have data_ : Follows s [.dims data ixs] (s.setArray data a) := Follows.dims len shape
                  have each' : ∀ (j : Nat) (ix : Index), ixs[j]? = some ix →
                      ∃ m n, maps[j]? = some m ∧ as[j]? = some n ∧ (s.arrays m).shape.length = 1 ∧
                        n.shape = List.zipWith Dimension.apply (s.arrays m).shape [ix] := by
                    intro j ix at_
                    obtain ⟨m, n, source, there, one, shape'⟩ := each j ix at_
                    rw [List.getElem?_map] at source
                    obtain ⟨id, there', rfl⟩ := Option.map_eq_some_iff.mp source
                    exact ⟨id, n, there', there, one, shape'⟩
                  rw [(mark_ok dds marked).1]
                  exact ⟨trivial, (data_.append (follows_setArrays each' data_)).append (Follows.mark ids _)⟩
      | sequence id =>
          cases marked : Dds.mark dds name with
          | error e => simp [marked, bind, Except.bind] at ok
          | ok ids =>
              simp only [marked, bind, Except.bind] at ok
              rw [(mark_ok dds marked).1]
              obtain ⟨one, rows⟩ := follows_process_sequence_slices ok
              exact ⟨one, (Follows.mark ids s).append rows⟩
      | field id =>
          cases done : process_sequence_slices id (ixs.map Index.slice) s with
          | error e => simp [done, bind, Except.bind] at ok
          | ok s₁ =>
              cases marked : Dds.mark dds name with
              | error e => simp [done, marked, bind, Except.bind] at ok
              | ok ids =>
                  simp only [done, marked, bind, Except.bind, pure, Except.pure, Except.ok.injEq] at ok
                  subst ok
                  rw [(mark_ok dds marked).1]
                  obtain ⟨one, rows⟩ := follows_process_sequence_slices done
                  exact ⟨one, rows.append (Follows.mark ids s₁)⟩

end

/-! ## The projection -/

section

-- how a name is read, and what is kept of names that have been put together
variable (read : Token → Name) (keep : Name → Name)

/-- The index lists behind the first one, with the names before them. -/
def bracketsFrom (path : Name) : List (Token × Option Indices) → List (Name × Indices)
  | [] => []
  | (t, ixs) :: more => ixs.toList.map (path ++ read t, ·) ++ bracketsFrom (keep (path ++ read t)) more

def lastFrom (path : Name) : List (Token × Option Indices) → Name
  | [] => path
  | (t, _) :: more => lastFrom (keep (path ++ read t)) more

namespace ProjClause

def brackets : ProjClause → List (Name × Indices)
  | .array first ixs more => (read first, ixs) :: bracketsFrom read keep (read first) more
  | .name _ | .const _ => []

/-- The name of the variable that is projected. -/
def last : ProjClause → Option Name
  | .name t => some (read t)
  | .array first _ more => some (lastFrom read keep (read first) more)
  | .const _ => none

def constant? : ProjClause → Option ConstArray
  | .const c => some c
  | .name _ | .array .. => none

end ProjClause

end

section

variable (dds : List BaseType)

def bracketsEffects (brackets : List (Name × Indices)) : List Effect :=
  brackets.flatMap fun b => bracketEffects dds b.1 b.2.1

namespace ProjClause

/-- Its index lists with the names that they are applied under. -/
abbrev applied (p : ProjClause) : List (Name × Indices) := p.brackets Token.name storeId

abbrev markedName (p : ProjClause) : Option Name := p.last Token.name storeId

def effects (p : ProjClause) : List Effect :=
  p.constant?.toList.map (fun c => .constant c.read) ++ bracketsEffects dds p.applied ++
    p.markedName.toList.map fun n => .mark (marks dds n)

/-- Its names are found. -/
def Found (p : ProjClause) : Prop :=
  (∀ n, p.markedName = some n → ∃ b, (Dds.var dds n).1 = some b ∧ ∀ x ∈ b.ids, x ∈ marks dds n) ∧
    ∀ b ∈ p.applied, Sliceable dds b.1 b.2.1

end ProjClause

variable {dds}

theorem follows_array_proj_clause {path name : Name} {more : List (Token × Option Indices)} {s s' : State}
    (ok : array_proj_clause dds path more s = .ok (name, s')) :
    name = lastFrom Token.name storeId path more ∧
      Follows s (bracketsEffects dds (bracketsFrom Token.name storeId path more)) s' ∧
      ∀ b ∈ bracketsFrom Token.name storeId path more, Sliceable dds b.1 b.2.1 := by
  induction more generalizing path s with
  | nil =>
      cases ok
      exact ⟨rfl, Follows.nothing _, fun _ mem => absurd mem List.not_mem_nil⟩
  | cons part more ih =>
      obtain ⟨t, ixs⟩ := part
      rw [array_proj_clause] at ok
      cases checked : t.check with
      | error e => simp [checked, bind, Except.bind] at ok
      | ok _ =>
          cases ixs with
          | none =>
              simp only [checked, bind, Except.bind, pure, Except.pure] at ok
              exact ih ok
          | some ixs =>
              cases done : bracket_projection dds (path ++ t.name) ixs.1 s with
              | error e => simp [checked, done, bind, Except.bind] at ok
              | ok s₁ =>
                  simp only [checked, done, bind, Except.bind] at ok
                  obtain ⟨found, here⟩ := follows_bracket_projection done
                  obtain ⟨last, others, all⟩ := ih ok
                  refine ⟨last, ?_, ?_⟩
                  · exact here.append others
                  · intro b mem
                    rcases List.mem_cons.mp mem with rfl | mem
                    · exact found
                    · exact all b mem

theorem follows_proj_clause {p : ProjClause} (some_ : p.constant? = none) {s s' : State}
    (ok : proj_clause dds p s = .ok s') : Follows s (p.effects dds) s' ∧ p.Found dds := by
  cases p with
  | name t =>
      rw [proj_clause] at ok
      cases checked : t.check with
      | error e => simp [checked, bind, Except.bind] at ok
      | ok _ =>
          cases found : (Dds.var dds t.name).1 with
          | none => simp [checked, found, bind, Except.bind] at ok
          | some b =>
              cases marked : Dds.mark dds t.name with
              | error e => simp [checked, found, marked, bind, Except.bind] at ok
              | ok ids =>
                  simp only [checked, found, marked, bind, Except.bind, pure, Except.pure, Except.ok.injEq] at ok
                  subst ok
                  obtain ⟨same, b, var, inside⟩ := mark_ok dds marked
                  have here := Follows.mark ids s
                  rw [← same] at here
                  refine ⟨by rw [← same]; exact here, ?_, fun _ mem => absurd mem List.not_mem_nil⟩
                  intro n is
                  cases is
                  exact ⟨b, var, by rw [same]; exact inside⟩
  | array first ixs more =>
      rw [proj_clause] at ok
      cases checked : first.check with
      | error e => simp [checked, bind, Except.bind] at ok
      | ok _ =>
          cases done : bracket_projection dds first.name ixs.1 s with
          | error e => simp [checked, done, bind, Except.bind] at ok
          | ok s₁ =>
              cases done' : array_proj_clause dds first.name more s₁ with
              | error e => simp [checked, done, done', bind, Except.bind] at ok
              | ok both =>
                  obtain ⟨name, s₂⟩ := both
                  cases marked : Dds.mark dds name with
                  | error e => simp [checked, done, done', marked, bind, Except.bind] at ok
                  | ok ids =>
                      simp only [checked, done, done', marked, bind, Except.bind, pure, Except.pure,
                        Except.ok.injEq] at ok
                      subst ok
                      obtain ⟨found, here⟩ := follows_bracket_projection done
                      obtain ⟨rfl, others, all⟩ := follows_array_proj_clause done'
                      obtain ⟨same, b, var, inside⟩ := mark_ok dds marked
                      have end_ := Follows.mark ids s₂
                      rw [← same] at end_ ⊢
                      refine ⟨(here.append others).append end_, ?_, ?_⟩
                      · intro n is
                        cases is
                        exact ⟨b, var, by rw [same]; exact inside⟩
                      · intro b mem
                        rcases List.mem_cons.mp mem with rfl | mem
                        · exact found
                        · exact all b mem
  | const c => cases some_

/-- The whole projection is read, or it ends at a constant array. -/
theorem follows_projection {ps : List ProjClause} {s s' : State} {stopped : Option (List ProjClause)}
    (ok : projection dds ps s = .ok (s', stopped)) :
    ∃ read, ps = read ++ stopped.getD [] ∧ Follows s (read.flatMap (ProjClause.effects dds)) s' ∧
      (∀ p ∈ read, p.Found dds) ∧
      (if stopped.isSome then ∃ before c, read = before ++ [.const c] ∧ ∀ p ∈ before, p.constant? = none
        else ∀ p ∈ read, p.constant? = none) := by
  induction ps generalizing s with
  | nil =>
      cases ok
      exact ⟨[], rfl, Follows.nothing _, fun _ mem => absurd mem List.not_mem_nil,
        fun _ mem => absurd mem List.not_mem_nil⟩
  | cons p ps ih =>
      cases const : p.constant? with
      | some c =>
          cases p with
          | const c' =>
              rw [projection] at ok
              cases checked : c'.check with
              | error e => simp [checked, bind, Except.bind] at ok
              | ok _ =>
                  simp only [checked, bind, Except.bind, pure, Except.pure, Except.ok.injEq, Prod.mk.injEq] at ok
                  obtain ⟨rfl, rfl⟩ := ok
                  refine ⟨[.const c'], rfl, Follows.constant c'.read s, ?_, ?_⟩
                  · intro p mem
                    rw [List.mem_singleton.mp mem]
                    exact ⟨(fun n is => nomatch is), fun _ mem => absurd mem List.not_mem_nil⟩
                  · simp only [Option.isSome_some, if_true]
                    exact ⟨[], c', rfl, fun _ mem => absurd mem List.not_mem_nil⟩
          | name t => cases const
          | array first ixs more => cases const
      | none =>
          have step : projection dds (p :: ps) s = (do projection dds ps (← proj_clause dds p s)) := by
            cases p with
            | const c => cases const
            | name t => rw [projection]; exact fun _ same => nomatch same
            | array first ixs more => rw [projection]; exact fun _ same => nomatch same
          rw [step] at ok
          cases done : proj_clause dds p s with
          | error e => simp [done, bind, Except.bind] at ok
          | ok s₁ =>
              simp only [done, bind, Except.bind] at ok
              obtain ⟨here, found⟩ := follows_proj_clause const done
              obtain ⟨read, rfl, others, all, stops⟩ := ih ok
              refine ⟨p :: read, rfl, here.append others, ?_, ?_⟩
              · intro p' mem
                rcases List.mem_cons.mp mem with rfl | mem
                · exact found
                · exact all p' mem
              · split
                · rename_i is
                  rw [if_pos is] at stops
                  obtain ⟨before, c, rfl, plain⟩ := stops
                  refine ⟨p :: before, c, rfl, ?_⟩
                  intro p' mem
                  rcases List.mem_cons.mp mem with rfl | mem
                  · exact const
                  · exact plain p' mem
                · rename_i is
                  rw [if_neg is] at stops
                  intro p' mem
                  rcases List.mem_cons.mp mem with rfl | mem
                  · exact const
                  · exact stops p' mem

end

/-! ## The selection -/

section

variable (dds : List BaseType) (word : Name → Name) (read : Token → Name)

/-- The operand that is made of a value, with what is kept of its words. -/
def RValueText.value : RValueText → RValue
  | .id (.word text) =>
    match (Dds.var dds (Dap4.www2id (word text))).1 with
    | some b => .var (some b)
    | none => .word (word text)
  | .id (.str text) =>
    match (Dds.var dds (Dap4.www2id text)).1 with
    | some b => .var (some b)
    | none => .text (Dap4.www2id text)
  | .const c => .vector { c with values := c.values.map word }
  | .array t _ => .var (Dds.var dds (read t)).1

def ClauseText.clause (c : ClauseText) : Clause :=
  ⟨c.first.value dds word read, c.rel_op, c.others.map (·.value dds word read)⟩

end

section

variable (dds : List BaseType)

def RValueText.effects : RValueText → List Effect
  | .id (.word text) =>
    match (Dds.var dds (Dap4.www2id (storeId text))).1 with
    | some b => [.select (selectionIds b)]
    | none => []
  | .id (.str _) | .const _ => []
  | .array t ixs => bracketEffects dds t.name ixs.1 ++ [.mark (marks dds t.name)]

def ClauseText.effects (c : ClauseText) : List Effect :=
  c.values.flatMap (RValueText.effects dds) ++ [.clause (c.clause dds storeId Token.name)]

def ConstraintExpr.effects (ce : ConstraintExpr) : List Effect :=
  (if ce.projection.isEmpty then [.mark (BaseType.idsIn dds)] else ce.projection.flatMap (ProjClause.effects dds)) ++
    ce.selection.flatMap (ClauseText.effects dds)

variable {dds}

/-- An indexed array is found. -/
def RValueText.Found (dds : List BaseType) : RValueText → Prop
  | .id _ | .const _ => True
  | .array t _ => ∃ b, (Dds.var dds t.name).1 = some b

theorem follows_r_value {r : RValueText} {v : RValue} {s s' : State} (ok : r_value dds r s = .ok (v, s')) :
    v = r.value dds storeId Token.name ∧ Follows s (r.effects dds) s' ∧ r.Found dds := by
  cases r with
  | id t =>
      rw [r_value] at ok
      cases t with
      | word text =>
          rw [id_or_const] at ok
          rw [RValueText.value, RValueText.effects]
          cases found : (Dds.var dds (Dap4.www2id (storeId text))).1 with
          | none =>
              rw [found] at ok
              cases ok
              exact ⟨rfl, Follows.nothing _, trivial⟩
          | some b =>
              rw [found] at ok
              cases ok
              exact ⟨rfl, Follows.select _ _, trivial⟩
      | str text =>
          rw [id_or_const] at ok
          rw [RValueText.value, RValueText.effects]
          cases checked : (Token.str text).check with
          | error e => simp [checked, bind, Except.bind] at ok
          | ok _ =>
              cases found : (Dds.var dds (Dap4.www2id text)).1 with
              | none =>
                  simp only [checked, found, bind, Except.bind, pure, Except.pure] at ok
                  cases ok
                  exact ⟨rfl, Follows.nothing _, trivial⟩
              | some b =>
                  simp only [checked, found, bind, Except.bind, pure, Except.pure] at ok
                  cases ok
                  exact ⟨rfl, Follows.nothing _, trivial⟩
  | const c =>
      rw [r_value] at ok
      cases checked : c.check with
      | error e => simp [checked, bind, Except.bind] at ok
      | ok _ =>
          simp only [checked, bind, Except.bind, pure, Except.pure] at ok
          cases ok
          exact ⟨rfl, Follows.nothing _, trivial⟩
  | array t ixs =>
      rw [r_value] at ok
      cases checked : t.check with
      | error e => simp [checked, bind, Except.bind] at ok
      | ok _ =>
          cases done : bracket_projection dds t.name ixs.1 s with
          | error e => simp [checked, done, bind, Except.bind] at ok
          | ok s₁ =>
              cases marked : Dds.mark dds t.name with
              | error e => simp [checked, done, marked, bind, Except.bind] at ok
              | ok ids =>
                  simp only [checked, done, marked, bind, Except.bind, pure, Except.pure] at ok
                  cases ok
                  obtain ⟨same, b, found, _⟩ := mark_ok dds marked
                  refine ⟨rfl, ?_, b, found⟩
                  rw [RValueText.effects, same]
                  exact (follows_bracket_projection done).2.append (Follows.mark ids s₁)

theorem follows_r_value_list {rs : List RValueText} {vs : List RValue} {s s' : State}
    (ok : r_value_list dds rs s = .ok (vs, s')) :
    vs = rs.map (·.value dds storeId Token.name) ∧ Follows s (rs.flatMap (RValueText.effects dds)) s' ∧
      ∀ r ∈ rs, r.Found dds := by
  induction rs generalizing vs s with
  | nil =>
      cases ok
      exact ⟨rfl, Follows.nothing _, fun _ mem => absurd mem List.not_mem_nil⟩
  | cons r rs ih =>
      rw [r_value_list] at ok
      cases done : r_value dds r s with
      | error e => simp [done, bind, Except.bind] at ok
      | ok first =>
          obtain ⟨v, s₁⟩ := first
          cases done' : r_value_list dds rs s₁ with
          | error e => simp [done, done', bind, Except.bind] at ok
          | ok others =>
              obtain ⟨vs', s₂⟩ := others
              simp only [done, done', bind, Except.bind, pure, Except.pure] at ok
              cases ok
              obtain ⟨rfl, here, found⟩ := follows_r_value done
              obtain ⟨rfl, there, all⟩ := ih done'
              exact ⟨rfl, here.append there, List.forall_mem_cons.mpr ⟨found, all⟩⟩

theorem follows_selection {cs : List ClauseText} {s s' : State} (ok : selection dds cs s = .ok s') :
    Follows s (cs.flatMap (ClauseText.effects dds)) s' ∧ ∀ c ∈ cs, ∀ r ∈ c.values, r.Found dds := by
  induction cs generalizing s with
  | nil =>
      cases ok
      exact ⟨Follows.nothing _, fun _ mem => absurd mem List.not_mem_nil⟩
  | cons c cs ih =>
      rw [selection] at ok
      cases done : clause dds c s with
      | error e => simp [done, bind, Except.bind] at ok
      | ok s₁ =>
          simp only [done, bind, Except.bind] at ok
          obtain ⟨rest, all⟩ := ih ok
          unfold clause at done
          cases first : r_value dds c.first s with
          | error e => simp [first, bind, Except.bind] at done
          | ok v =>
              obtain ⟨v, s₂⟩ := v
              cases others : r_value_list dds c.others s₂ with
              | error e => simp [first, others, bind, Except.bind] at done
              | ok vs =>
                  obtain ⟨vs, s₃⟩ := vs
                  simp only [first, others, bind, Except.bind, pure, Except.pure, Except.ok.injEq] at done
                  subst done
                  obtain ⟨rfl, here, found⟩ := follows_r_value first
                  obtain ⟨rfl, there, found'⟩ := follows_r_value_list others
                  refine ⟨((here.append there).append (Follows.clause _ s₃)).append rest, ?_⟩
                  exact List.forall_mem_cons.mpr ⟨List.forall_mem_cons.mpr ⟨found, found'⟩, all⟩

/-! ## The whole expression -/

/-- A constant array is the last thing in the expression, if the projection has one. -/
def ConstraintExpr.ConstantLast (ce : ConstraintExpr) : Prop :=
  (∀ p ∈ ce.projection.dropLast, p.constant? = none) ∧
    ∀ p, ce.projection.getLast? = some p → p.constant? = none ∨ ce.selection = []

theorem follows_parse_constraint {ce rest : ConstraintExpr} {s s' : State}
    (ok : parse_constraint dds ce s = .ok (s', rest)) :
    (rest = ⟨[], []⟩ ∧ ce.ConstantLast ∧ Follows s (ce.effects dds) s' ∧ (∀ p ∈ ce.projection, p.Found dds) ∧
      ∀ c ∈ ce.selection, ∀ r ∈ c.values, r.Found dds) ∨
    (rest ≠ ⟨[], []⟩ ∧ ¬ ce.ConstantLast) := by
  obtain ⟨ps, cs⟩ := ce
  unfold parse_constraint at ok
  cases ps with
  | nil =>
      cases done : selection dds cs (s.mark (BaseType.idsIn dds)) with
      | error e => simp [done, bind, Except.bind] at ok
      | ok s₁ =>
          simp only [done, bind, Except.bind, pure, Except.pure] at ok
          cases ok
          left
          obtain ⟨follows, found⟩ := follows_selection done
          exact ⟨rfl, ⟨fun _ mem => absurd mem List.not_mem_nil, (fun _ is => nomatch is)⟩,
            (Follows.mark _ s).append follows, fun _ mem => absurd mem List.not_mem_nil, found⟩
  | cons p ps =>
      cases done : projection dds (p :: ps) s with
      | error e => simp [done, bind, Except.bind] at ok
      | ok both =>
          obtain ⟨s₁, stopped⟩ := both
          obtain ⟨read, all, follows, found, stops⟩ := follows_projection done
          cases stopped with
          | none =>
              cases done' : selection dds cs s₁ with
              | error e => simp [done, done', bind, Except.bind] at ok
              | ok s₂ =>
                  simp only [done, done', bind, Except.bind, pure, Except.pure] at ok
                  cases ok
                  rw [Option.getD_none, List.append_nil] at all
                  subst all
                  left
                  obtain ⟨follows', found'⟩ := follows_selection done'
                  refine ⟨rfl, ⟨?_, ?_⟩, follows.append follows', found, found'⟩
                  · exact fun p' mem => stops p' (List.mem_of_mem_dropLast mem)
                  · exact fun p' is => .inl (stops p' (List.mem_of_getLast? is))
          | some left_ =>
              simp only [done, bind, Except.bind, pure, Except.pure] at ok
              cases ok
              obtain ⟨before, c, rfl, plain⟩ := stops
              rw [Option.getD_some] at all
              cases left_ with
              | nil =>
                  rw [List.append_nil] at all
                  by_cases none_ : cs = []
                  · left
                    subst none_
                    refine ⟨rfl, ⟨?_, ?_⟩, ?_, ?_, fun _ mem => absurd mem List.not_mem_nil⟩
                    · intro p' mem
                      rw [all, List.dropLast_concat] at mem
                      exact plain p' mem
                    · exact fun _ _ => .inr rfl
                    · have whole := follows.append (Follows.nothing _)
                      rw [← all] at whole
                      exact whole
                    · rw [all]
                      exact found
                  · right
                    refine ⟨fun same => none_ (congrArg ConstraintExpr.selection same), ?_⟩
                    rintro ⟨_, last⟩
                    rw [all] at last
                    rcases last (.const c) List.getLast?_concat with impossible | same
                    · cases impossible
                    · exact none_ same
              | cons p' left_ =>
                  right
                  refine ⟨(fun same => nomatch (congrArg ConstraintExpr.projection same)), ?_⟩
                  rintro ⟨inside, _⟩
                  have early : ProjClause.const c ∈ (p :: ps).dropLast := by
                    rw [all, List.dropLast_append_of_ne_nil (List.cons_ne_nil _ _)]
                    simp
                  cases inside _ early

end

end CeParser

end Libdap.Dap2
