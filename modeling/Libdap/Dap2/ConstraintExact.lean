import Libdap.Dap2.ConstraintEffects

/-! # When a constraint takes effect as a whole

What an expression says, with its names and numbers as they are written, against the effects that
it has.
-/

namespace Libdap.Dap2

open Dap4 (Name BaseType NodeAt)
open Ints

/-! ## Numbers -/

namespace Index

def writtenStart : Index → Nat
  | .all => 0
  | .single n | .range n _ | .onward n | .strided n _ _ | .stridedOnward n _ => n.toNat

def writtenStride : Index → Nat
  | .single _ | .all | .range _ _ | .onward _ => 1
  | .strided _ s _ | .stridedOnward _ s => s.toNat

/-- The number that is written for the end; a star is none. -/
abbrev writtenStop (ix : Index) : Option Nat := CeParser.stopNumber ix

/-- The numbers that are written are `int`s too. -/
structure Small (ix : Index) : Prop where
  start : ix.writtenStart < 2 ^ 31
  stride : ix.writtenStride < 2 ^ 31
  stop : ∀ n, ix.writtenStop = some n → n < 2 ^ 31

end Index

namespace Dimension

/-- A star stands for the last element. -/
def writtenStop (d : Dimension) (ix : Index) : Int :=
  match ix.writtenStop with
  | some n => n
  | none => i32 (d.size - 1)

/-- The dimension has the start, the stride and the stop that are written. -/
structure Written (d : Dimension) (ix : Index) : Prop where
  start : d.start = ix.writtenStart
  stride : d.stride = ix.writtenStride
  stop : d.stop = d.writtenStop ix

end Dimension

/-- A number below 2^31 is the one that is written when that is the same number as an `int`. -/
theorem eq_toNat_iff {x : Int} (small : x < 2 ^ 31) (n : BitVec 32) :
    x = (n.toNat : Int) ↔ n.toNat < 2 ^ 31 ∧ x = n.toInt := by
  have below := n.isLt
  rw [BitVec.toInt_eq_toNat_cond]
  split <;> omega

namespace Index

theorem start_lt (ix : Index) : ix.start < 2 ^ 31 := by
  cases ix with
  | all => exact (by decide : (0 : Int) < 2 ^ 31)
  | single n | range n _ | onward n | strided n _ _ | stridedOnward n _ => exact BitVec.toInt_lt

theorem stride_lt (ix : Index) : ix.stride < 2 ^ 31 := by
  cases ix with
  | strided _ s _ | stridedOnward _ s => exact BitVec.toInt_lt
  | single _ | all | range _ _ | onward _ => exact (by decide : (1 : Int) < 2 ^ 31)

theorem stop_lt (ix : Index) : ix.stop < 2 ^ 31 := by
  cases ix with
  | single n | range _ n | strided _ _ n => exact BitVec.toInt_lt
  | all | onward _ | stridedOnward _ _ => exact (by decide : (-1 : Int) < 2 ^ 31)

theorem eq_writtenStart_iff (ix : Index) {x : Int} (small : x < 2 ^ 31) :
    x = ix.writtenStart ↔ ix.writtenStart < 2 ^ 31 ∧ x = ix.start := by
  cases ix with
  | all => simp [writtenStart, start]
  | single n | range n _ | onward n | strided n _ _ | stridedOnward n _ => exact eq_toNat_iff small n

theorem eq_writtenStride_iff (ix : Index) {x : Int} (small : x < 2 ^ 31) :
    x = ix.writtenStride ↔ ix.writtenStride < 2 ^ 31 ∧ x = ix.stride := by
  cases ix with
  | strided _ s _ | stridedOnward _ s => exact eq_toNat_iff small s
  | single _ | all | range _ _ | onward _ => simp [writtenStride, stride]

end Index

namespace Dimension

theorem lastIndex_lt (d : Dimension) (ix : Index) : d.lastIndex ix.stop < 2 ^ 31 := by
  unfold lastIndex
  split
  · exact (i32_fits _).2
  · exact ix.stop_lt

/-- A number that is not an `int` can have the bits of a star. -/
theorem eq_writtenStop_iff (d : Dimension) (ix : Index) {x : Int} (small : x < 2 ^ 31) :
    x = d.writtenStop ix ↔ (∀ n, ix.writtenStop = some n → n < 2 ^ 31) ∧ x = d.lastIndex ix.stop := by
  have number (n : BitVec 32) : x = (n.toNat : Int) ↔
      (∀ m, some n.toNat = some m → m < 2 ^ 31) ∧ x = d.lastIndex n.toInt := by
    rw [eq_toNat_iff small n]
    have below := n.isLt
    have same := BitVec.toInt_eq_toNat_cond n
    have unstarred (few : n.toNat < 2 ^ 31) : d.lastIndex n.toInt = n.toInt := if_neg (by omega)
    constructor
    · rintro ⟨few, is⟩
      exact ⟨fun m some_ => Option.some.inj some_ ▸ few, by rw [unstarred few, is]⟩
    · rintro ⟨few, is⟩
      exact ⟨few _ rfl, by rw [is, unstarred (few _ rfl)]⟩
  cases ix with
  | single n | range _ n | strided _ _ n => exact number n
  | all | onward _ | stridedOnward _ _ => simp [writtenStop, Index.writtenStop, CeParser.stopNumber, Index.stop, lastIndex]

theorem apply_eq_iff (d : Dimension) (ix ix' : Index) :
    d.apply ix' = d.apply ix ↔
      ix'.start = ix.start ∧ ix'.stride = ix.stride ∧ d.lastIndex ix'.stop = d.lastIndex ix.stop := by
  constructor
  · intro same
    exact ⟨congrArg Dimension.start same, congrArg Dimension.stride same, congrArg Dimension.stop same⟩
  · rintro ⟨start, stride, stop⟩
    rw [apply, apply, start, stride, stop]

/-- The index that is applied says the same as the one that is written. -/
theorem written_apply_iff (d : Dimension) (ix ix' : Index) :
    (d.apply ix').Written ix ↔ ix.Small ∧ d.apply ix' = d.apply ix := by
  rw [apply_eq_iff]
  constructor
  · intro written
    obtain ⟨start, start'⟩ := (ix.eq_writtenStart_iff ix'.start_lt).mp written.start
    obtain ⟨stride, stride'⟩ := (ix.eq_writtenStride_iff ix'.stride_lt).mp written.stride
    obtain ⟨stop, stop'⟩ := (d.eq_writtenStop_iff ix (d.lastIndex_lt ix')).mp written.stop
    exact ⟨⟨start, stride, stop⟩, start', stride', stop'⟩
  · rintro ⟨small, start, stride, stop⟩
    exact ⟨(ix.eq_writtenStart_iff ix'.start_lt).mpr ⟨small.start, start⟩,
      (ix.eq_writtenStride_iff ix'.stride_lt).mpr ⟨small.stride, stride⟩,
      (d.eq_writtenStop_iff ix (d.lastIndex_lt ix')).mpr ⟨small.stop, stop⟩⟩

end Dimension

/-- The same for all dimensions of an array. -/
theorem forall₂_written_iff {shape : List Dimension} {ixs ixs' : List Index} (len : ixs.length = shape.length)
    (len' : ixs'.length = shape.length) :
    List.Forall₂ Dimension.Written (List.zipWith Dimension.apply shape ixs') ixs ↔
      (∀ ix ∈ ixs, ix.Small) ∧
        List.zipWith Dimension.apply shape ixs' = List.zipWith Dimension.apply shape ixs := by
  induction shape generalizing ixs ixs' with
  | nil =>
      rw [List.length_eq_zero_iff.mp len]
      simp
  | cons d shape ih =>
      cases ixs with
      | nil => cases len
      | cons ix ixs =>
          cases ixs' with
          | nil => cases len'
          | cons ix' ixs' =>
              simp only [List.zipWith_cons_cons, List.forall₂_cons, List.forall_mem_cons, List.cons.injEq,
                d.written_apply_iff ix ix', ih (Nat.succ.inj len) (Nat.succ.inj len')]
              tauto

namespace CeParser

/-- The numbers of a Sequence's rows are those that are written. -/
structure Rows.Written (r : Rows) (ix : Index) : Prop where
  start : r.start = ix.writtenStart
  stride : r.stride = ix.writtenStride
  stop : ∀ n, ix.writtenStop = some n → r.stop = n

/-- A Sequence takes no star. -/
theorem written_rowsOf_iff {ix : Index} (unstarred : (stopNumber ix).isSome) (ix' : Index) :
    (rowsOf ix').Written ix ↔ ix.Small ∧ rowsOf ix' = rowsOf ix := by
  have stops (x : Int) (small : x < 2 ^ 31) : (∀ n, ix.writtenStop = some n → x = n) ↔
      (∀ n, ix.writtenStop = some n → n < 2 ^ 31) ∧ x = ix.stop := by
    have number (n : BitVec 32) : (∀ m, some n.toNat = some m → x = m) ↔
        (∀ m, some n.toNat = some m → m < 2 ^ 31) ∧ x = n.toInt := by
      simp only [Option.some.injEq, forall_eq', eq_toNat_iff small n]
    cases ix with
    | single n | range _ n | strided _ _ n => exact number n
    | all | onward _ | stridedOnward _ _ => cases unstarred
  constructor
  · intro written
    obtain ⟨start, start'⟩ := (ix.eq_writtenStart_iff ix'.start_lt).mp written.start
    obtain ⟨stride, stride'⟩ := (ix.eq_writtenStride_iff ix'.stride_lt).mp written.stride
    obtain ⟨stop, stop'⟩ := (stops _ ix'.stop_lt).mp written.stop
    exact ⟨⟨start, stride, stop⟩, by rw [rowsOf, start', stride', stop', rowsOf]⟩
  · rintro ⟨small, same⟩
    rw [same]
    exact ⟨(ix.eq_writtenStart_iff ix.start_lt).mpr ⟨small.start, rfl⟩,
      (ix.eq_writtenStride_iff ix.stride_lt).mpr ⟨small.stride, rfl⟩,
      (stops _ ix.stop_lt).mpr ⟨small.stop, rfl⟩⟩

/-! ## Index lists -/

/-- What is left of an array or Sequence by an effect is what is written in it. -/
def Effect.Applied (s : State) : Effect → Prop
  | dims id ixs => List.Forall₂ Dimension.Written (s.arrays id).shape ixs
  | rows id ix => ∃ r, s.rows id = some r ∧ r.Written ix
  | mark _ | select _ | constant _ | clause _ => True

/-- The last list for the same array or Sequence, in a run of effects, says the same, and the numbers are
    `int`s. -/
def Effect.Lasts (s : State) (es : List Effect) : Effect → Prop
  | dims id ixs => (∀ ix ∈ ixs, ix.Small) ∧
      ∀ last, lastDims id es = some last →
        List.zipWith Dimension.apply (s.arrays id).shape last = List.zipWith Dimension.apply (s.arrays id).shape ixs
  | rows id ix => ix.Small ∧ ∀ last, lastRows id es = some last → rowsOf last = rowsOf ix
  | mark _ | select _ | constant _ | clause _ => True

theorem exists_lastDims {x : Nat} {es : List Effect} {ixs : List Index} (mem : .dims x ixs ∈ es) :
    ∃ last, lastDims x es = some last := by
  rw [← Option.isSome_iff_exists, lastDims, List.findSome?_isSome_iff]
  exact ⟨_, List.mem_reverse.mpr mem, by simp [Effect.dims?]⟩

theorem exists_lastRows {x : Nat} {es : List Effect} {ix : Index} (mem : .rows x ix ∈ es) :
    ∃ last, lastRows x es = some last := by
  rw [← Option.isSome_iff_exists, lastRows, List.findSome?_isSome_iff]
  exact ⟨_, List.mem_reverse.mpr mem, by simp [Effect.rows?]⟩

theorem applied_iff {s s' : State} {es : List Effect} (follows : Follows s es s') {e : Effect} (mem : e ∈ es)
    (unstarred : ∀ id ix, e = .rows id ix → (stopNumber ix).isSome) : e.Applied s' ↔ e.Lasts s es := by
  cases e with
  | dims id ixs =>
      obtain ⟨last, is⟩ := exists_lastDims mem
      rw [Effect.Applied, Effect.Lasts, follows.arrays id, is, shapeAfter,
        forall₂_written_iff (follows.ranks id ixs mem) (follows.ranks id last (mem_of_lastDims is))]
      simp only [Option.some.injEq, forall_eq']
  | rows id ix =>
      obtain ⟨last, is⟩ := exists_lastRows mem
      rw [Effect.Applied, Effect.Lasts, follows.rows id, is]
      simp only [Option.map_some, Option.some_or, Option.some.injEq, exists_eq_left', forall_eq',
        written_rowsOf_iff (unstarred id ix rfl)]
  | mark | select | constant | clause => rfl

section

variable (dds : List BaseType)

/-- An index list is applied to the variable that it follows. The first index of a Grid is for its first map too. -/
def Sliced (s : State) (name : Name) (ixs : List Index) : Prop :=
  match target dds name with
  | none => False
  | some (.array id) => List.Forall₂ Dimension.Written (s.arrays id).shape ixs
  | some (.grid data maps) => List.Forall₂ Dimension.Written (s.arrays data).shape ixs ∧
      ∀ m ∈ maps.zip ixs, List.Forall₂ Dimension.Written (s.arrays m.1).shape [m.2]
  | some (.sequence id) | some (.field id) => ∃ ix r, ixs = [ix] ∧ s.rows id = some r ∧ r.Written ix

variable {dds}

theorem sliced_iff {s : State} {name : Name} {ixs : List Index} (sliceable : Sliceable dds name ixs) :
    Sliced dds s name ixs ↔ ∀ e ∈ bracketEffects dds name ixs, e.Applied s := by
  unfold Sliceable at sliceable
  unfold Sliced bracketEffects
  split at sliceable
  · exact sliceable.elim
  · rename_i id is
    simp only [is, List.forall_mem_singleton, Effect.Applied]
  · rename_i data maps is
    simp only [is, gridEffects, List.cons_append, List.forall_mem_cons, List.forall_mem_append, List.forall_mem_map,
      Effect.Applied, List.not_mem_nil, IsEmpty.forall_iff, implies_true, and_true]
  · rename_i id is
    obtain ⟨ix, rfl, -⟩ := sliceable
    simp [is, rowEffects, Effect.Applied]
  · rename_i id is
    obtain ⟨ix, rfl, -⟩ := sliceable
    simp [is, rowEffects, Effect.Applied]

theorem unstarred_of_sliceable {name : Name} {ixs : List Index} (sliceable : Sliceable dds name ixs) {e : Effect}
    (mem : e ∈ bracketEffects dds name ixs) (id : Nat) (ix : Index) (is : e = .rows id ix) : (stopNumber ix).isSome := by
  subst is
  unfold Sliceable at sliceable
  unfold bracketEffects at mem
  split at sliceable
  · exact sliceable.elim
  · rename_i is
    simp [is] at mem
  · rename_i is
    simp [is, gridEffects] at mem
  all_goals
    rename_i is
    obtain ⟨ix', rfl, number⟩ := sliceable
    simp [is, rowEffects] at mem
    obtain ⟨-, rfl⟩ := mem
    exact number

end

/-! ## Names -/

/-- The name that is written, which no buffer has cut. -/
def Token.whole : Token → Name
  | .word text | .str text => Dap4.www2id text

/-- The names that are looked up for a clause, each with the one that is written. -/
def ProjClause.lookups (p : ProjClause) : List (Name × Name) :=
  (p.applied.zip (p.brackets Token.whole id)).map (fun b => (b.1.1, b.2.1)) ++
    p.markedName.toList.zip (p.last Token.whole id).toList

def RValueText.lookups : RValueText → List (Name × Name)
  | .id (.word text) => [(Dap4.www2id (storeId text), Dap4.www2id text)]
  | .id (.str _) | .const _ => []
  | .array t _ => [(t.name, t.whole)]

theorem brackets_eq {bs bs' : List (Name × Indices)} (ixs : bs.map Prod.snd = bs'.map Prod.snd)
    (same : ∀ b ∈ bs.zip bs', b.1.1 = b.2.1) : bs = bs' := by
  induction bs generalizing bs' with
  | nil =>
      rw [List.map_nil, eq_comm, List.map_eq_nil_iff] at ixs
      exact ixs.symm
  | cons b bs ih =>
      cases bs' with
      | nil => cases ixs
      | cons b' bs' =>
          rw [List.zip_cons_cons, List.forall_mem_cons] at same
          obtain ⟨first, rest⟩ := List.cons.inj ixs
          rw [show b = b' from Prod.ext same.1 first, ih rest same.2]

theorem bracketsFrom_snd (read read' : Token → Name) (keep keep' : Name → Name) (path path' : Name)
    (more : List (Token × Option Indices)) :
    (bracketsFrom read keep path more).map Prod.snd = (bracketsFrom read' keep' path' more).map Prod.snd := by
  induction more generalizing path path' with
  | nil => rfl
  | cons part more ih =>
      obtain ⟨t, ixs⟩ := part
      rw [bracketsFrom, bracketsFrom, List.map_append, List.map_append, ih (keep (path ++ read t)) (keep' (path' ++ read' t))]
      cases ixs <;> rfl

namespace ProjClause

theorem brackets_snd (read read' : Token → Name) (keep keep' : Name → Name) (p : ProjClause) :
    (p.brackets read keep).map Prod.snd = (p.brackets read' keep').map Prod.snd := by
  cases p with
  | array first ixs more =>
      rw [brackets, brackets, List.map_cons, List.map_cons, bracketsFrom_snd read read' keep keep' _ (read' first)]
  | name t => rfl
  | const c => rfl

/-- The names are those that are written when each of them is. -/
theorem names_eq {p : ProjClause} (same : ∀ l ∈ p.lookups, l.1 = l.2) :
    p.applied = p.brackets Token.whole id ∧ p.markedName = p.last Token.whole id := by
  rw [lookups, List.forall_mem_append, List.forall_mem_map] at same
  obtain ⟨brackets_, last_⟩ := same
  refine ⟨brackets_eq (p.brackets_snd _ _ _ _) brackets_, ?_⟩
  cases p with
  | const c => rfl
  | name t => exact congrArg some (last_ _ List.mem_cons_self)
  | array first ixs more => exact congrArg some (last_ _ List.mem_cons_self)

variable {dds : List BaseType}

/-- Every name of a clause that is carried out is found. -/
theorem lookups_resolve {p : ProjClause} (found : p.Found dds) {l : Name × Name} (mem : l ∈ p.lookups) :
    ∃ b, (Dds.var dds l.1).1 = some b := by
  rw [lookups, List.mem_append, List.mem_map] at mem
  rcases mem with ⟨b, mem, rfl⟩ | mem
  · have sliceable := found.2 b.1 (List.of_mem_zip mem).1
    cases var : (Dds.var dds b.1.1).1 with
    | some c => exact ⟨c, rfl⟩
    | none => simp [Sliceable, target, var] at sliceable
  · obtain ⟨first, -⟩ := List.of_mem_zip mem
    obtain ⟨b, var, -⟩ := found.1 l.1 (Option.mem_toList.mp first)
    exact ⟨b, var⟩

end ProjClause

/-! ## Values -/

/-- The value names what is written in it. Only a word that names nothing has to be kept as it is. -/
def RValueText.Kept (dds : List BaseType) : RValueText → Prop
  | .id (.word text) =>
    if (Dds.var dds (Dap4.www2id (storeId text))).1.isSome then Dap4.www2id (storeId text) = Dap4.www2id text
    else storeId text = text
  | .id (.str _) => True
  | .const c => c.read = c
  | .array t _ => t.name = t.whole

section

variable {dds : List BaseType}

theorem map_read_eq_iff (cs : List ConstArray) : cs.map ConstArray.read = cs ↔ ∀ c ∈ cs, c.read = c := by
  induction cs with
  | nil => simp
  | cons c cs ih => rw [List.map_cons, List.cons.injEq, ih, List.forall_mem_cons]

theorem value_kept_iff {r : RValueText} (found : r.Found dds) :
    (r.value dds storeId Token.name = r.value dds id Token.whole ∧
      ∀ l ∈ r.lookups, ∀ b, (Dds.var dds l.1).1 = some b → l.1 = l.2) ↔ r.Kept dds := by
  cases r with
  | id t =>
      cases t with
      | word text =>
          simp only [RValueText.lookups, List.forall_mem_singleton, RValueText.Kept, RValueText.value, id]
          cases resolved : (Dds.var dds (Dap4.www2id (storeId text))).1 with
          | some b =>
              rw [Option.isSome_some, if_pos rfl]
              constructor
              · rintro ⟨-, same⟩
                exact same b rfl
              · intro same
                rw [← same, resolved]
                exact ⟨rfl, fun _ _ => rfl⟩
          | none =>
              rw [Option.isSome_none, if_neg Bool.false_ne_true]
              constructor
              · rintro ⟨same, -⟩
                cases whole : (Dds.var dds (Dap4.www2id text)).1 with
                | some b =>
                    rw [whole] at same
                    cases same
                | none =>
                    rw [whole] at same
                    exact RValue.word.inj same
              · intro same
                rw [same] at resolved
                rw [resolved, same]
                exact ⟨rfl, fun _ is => absurd is (by simp)⟩
      | str text => simp [RValueText.lookups, RValueText.Kept, RValueText.value]
  | const c =>
      simp only [RValueText.lookups, List.not_mem_nil, IsEmpty.forall_iff, implies_true, and_true, RValueText.Kept,
        RValueText.value, RValue.vector.injEq, List.map_id]
      exact Iff.rfl
  | array t ixs =>
      simp only [RValueText.lookups, List.forall_mem_singleton, RValueText.Kept, RValueText.value]
      obtain ⟨b, is⟩ := found
      constructor
      · rintro ⟨-, same⟩
        exact same b is
      · intro same
        rw [same]
        exact ⟨rfl, fun _ _ => rfl⟩

/-- A clause is recorded as it is written when all its values are. -/
theorem clause_eq_iff (c : ClauseText) (word : Name → Name) (read : Token → Name) :
    c.clause dds storeId Token.name = c.clause dds word read ↔
      ∀ r ∈ c.values, r.value dds storeId Token.name = r.value dds word read := by
  rw [ClauseText.clause, ClauseText.clause, Clause.mk.injEq, ClauseText.values, List.forall_mem_cons, List.map_inj_left]
  simp

end

/-! ## The whole expression -/

namespace ConstraintExpr

/-- The names that are looked up, each with the one that is written. -/
def lookups (ce : ConstraintExpr) : List (Name × Name) :=
  ce.projection.flatMap ProjClause.lookups ++ ce.selection.flatMap fun c => c.values.flatMap RValueText.lookups

variable (ce : ConstraintExpr) (dds : List BaseType)

/-- A variable that the projection names, or one in it or around it. -/
def Projected (x : Nat) : Prop :=
  ∃ p ∈ ce.projection, ∃ n b, p.last Token.whole id = some n ∧ (Dds.var dds n).1 = some b ∧
    (x ∈ b.ids ∨ ∃ q a, NodeAt dds q a ∧ a.id = x ∧ b.id ∈ a.ids)

/-- A value of the selection names a variable. -/
def Selects (r : RValueText) (b : BaseType) : Prop :=
  (∃ c ∈ ce.selection, r ∈ c.values) ∧ r.value dds id Token.whole = .var (some b)

end ConstraintExpr

/-- The expression takes effect as a whole, from one state to another with some of it unread. -/
structure TakesEffect (dds : List BaseType) (ce : ConstraintExpr) (s s' : State) (rest : ConstraintExpr) : Prop where
  read : rest = ⟨[], []⟩
  named : ∀ p ∈ ce.projection, ∀ n, p.last Token.whole id = some n →
    ∃ b, (Dds.var dds n).1 = some b ∧ b.id ∈ s'.marked
  constants : s'.constants = s.constants ++ ce.projection.filterMap ProjClause.constant?
  sliced : ∀ p ∈ ce.projection, ∀ b ∈ p.brackets Token.whole id, Sliced dds s' b.1 b.2.1
  only : if ce.projection = [] then ∀ x ∈ BaseType.idsIn dds, x ∈ s'.marked
    else ∀ x ∈ s'.marked, ce.Projected dds x
  recorded : s'.expr = s.expr ++ ce.selection.map (·.clause dds id Token.whole)
  selected : ∀ r b, ce.Selects dds r b → b.id ∈ s'.in_selection
  resolved : ∀ l ∈ ce.lookups, ∀ b, (Dds.var dds l.1).1 = some b → l.1 = l.2

/-- The expressions that do: a constant array ends the expression, no name or word is cut, no number is too large and
    no index list follows another on the same variable that says otherwise, what is marked for an index list is
    projected as well, and what the selection names in quotes or with indices is named there as a word too. -/
structure ConstraintExpr.Kept (dds : List BaseType) (s : State) (ce : ConstraintExpr) : Prop where
  last : ce.ConstantLast
  names : ∀ p ∈ ce.projection, ∀ l ∈ p.lookups, l.1 = l.2
  constants : ∀ p ∈ ce.projection, ∀ c, p.constant? = some c → c.read = c
  lists : ∀ p ∈ ce.projection, ∀ b ∈ p.applied, ∀ e ∈ bracketEffects dds b.1 b.2.1, e.Lasts s (ce.effects dds)
  marks : ce.projection ≠ [] → ∀ ids, .mark ids ∈ ce.effects dds → ∀ x ∈ ids, ce.Projected dds x
  values : ∀ c ∈ ce.selection, ∀ r ∈ c.values, r.Kept dds
  selects : ∀ r b, ce.Selects dds r b → (∀ text, r ≠ .id (.word text)) →
    b.id ∈ s.in_selection ∨ ∃ ids, .select ids ∈ ce.effects dds ∧ b.id ∈ ids

/-! What the effects of an expression are. -/

theorem mem_marked {es : List Effect} {x : Nat} : x ∈ es.flatMap Effect.marked ↔ ∃ ids, .mark ids ∈ es ∧ x ∈ ids := by
  rw [List.mem_flatMap]
  constructor
  · rintro ⟨e, mem, inside⟩
    cases e with
    | mark ids => exact ⟨ids, mem, inside⟩
    | select | dims | rows | constant | clause => cases inside
  · rintro ⟨ids, mem, inside⟩
    exact ⟨_, mem, inside⟩

theorem mem_selected {es : List Effect} {x : Nat} :
    x ∈ es.flatMap Effect.selected ↔ ∃ ids, .select ids ∈ es ∧ x ∈ ids := by
  rw [List.mem_flatMap]
  constructor
  · rintro ⟨e, mem, inside⟩
    cases e with
    | select ids => exact ⟨ids, mem, inside⟩
    | mark | dims | rows | constant | clause => cases inside
  · rintro ⟨ids, mem, inside⟩
    exact ⟨_, mem, inside⟩

section

variable {dds : List BaseType}

theorem bracketEffects_plain {name : Name} {ixs : List Index} {e : Effect} (mem : e ∈ bracketEffects dds name ixs) :
    e.constant? = none ∧ e.clause? = none := by
  have rows (id : Nat) (mem : e ∈ rowEffects id ixs) : e.constant? = none ∧ e.clause? = none := by
    unfold rowEffects at mem
    split at mem
    · rw [List.mem_singleton.mp mem]
      exact ⟨rfl, rfl⟩
    · cases mem
  unfold bracketEffects at mem
  split at mem
  · cases mem
  · rw [List.mem_singleton.mp mem]
    exact ⟨rfl, rfl⟩
  · rcases List.mem_append.mp mem with mem | mem
    · rcases List.mem_cons.mp mem with rfl | mem
      · exact ⟨rfl, rfl⟩
      · obtain ⟨m, -, rfl⟩ := List.mem_map.mp mem
        exact ⟨rfl, rfl⟩
    · rw [List.mem_singleton.mp mem]
      exact ⟨rfl, rfl⟩
  · rcases List.mem_cons.mp mem with rfl | mem
    · exact ⟨rfl, rfl⟩
    · exact rows _ mem
  · rcases List.mem_append.mp mem with mem | mem
    · exact rows _ mem
    · rw [List.mem_singleton.mp mem]
      exact ⟨rfl, rfl⟩

theorem ProjClause.effects_read (p : ProjClause) :
    (p.effects dds).filterMap Effect.constant? = p.constant?.toList.map ConstArray.read ∧
      (p.effects dds).filterMap Effect.clause? = [] := by
  have brackets_ : ∀ e ∈ bracketsEffects dds p.applied, e.constant? = none ∧ e.clause? = none := by
    intro e mem
    obtain ⟨b, -, mem⟩ := List.mem_flatMap.mp mem
    exact bracketEffects_plain mem
  have constants := List.filterMap_eq_nil_iff.mpr fun e mem => (brackets_ e mem).1
  have clauses := List.filterMap_eq_nil_iff.mpr fun e mem => (brackets_ e mem).2
  rw [ProjClause.effects, List.filterMap_append, List.filterMap_append, List.filterMap_append, List.filterMap_append,
    constants, clauses]
  constructor
  · cases p.constant? <;> cases p.markedName <;> rfl
  · cases p.constant? <;> cases p.markedName <;> rfl

theorem ClauseText.effects_read (c : ClauseText) :
    (c.effects dds).filterMap Effect.constant? = [] ∧
      (c.effects dds).filterMap Effect.clause? = [c.clause dds storeId Token.name] := by
  have values_ : ∀ e ∈ c.values.flatMap (RValueText.effects dds), e.constant? = none ∧ e.clause? = none := by
    intro e mem
    obtain ⟨r, -, mem⟩ := List.mem_flatMap.mp mem
    unfold RValueText.effects at mem
    split at mem
    · split at mem
      · rw [List.mem_singleton.mp mem]
        exact ⟨rfl, rfl⟩
      · cases mem
    · cases mem
    · cases mem
    · rcases List.mem_append.mp mem with mem | mem
      · exact bracketEffects_plain mem
      · rw [List.mem_singleton.mp mem]
        exact ⟨rfl, rfl⟩
  rw [ClauseText.effects, List.filterMap_append, List.filterMap_append,
    List.filterMap_eq_nil_iff.mpr fun e mem => (values_ e mem).1,
    List.filterMap_eq_nil_iff.mpr fun e mem => (values_ e mem).2]
  exact ⟨rfl, rfl⟩

namespace ConstraintExpr

theorem effects_constants (ce : ConstraintExpr) :
    (ce.effects dds).filterMap Effect.constant? = (ce.projection.filterMap ProjClause.constant?).map ConstArray.read := by
  have selection_ : (ce.selection.flatMap (ClauseText.effects dds)).filterMap Effect.constant? = [] := by
    rw [List.filterMap_flatMap]
    exact List.flatMap_eq_nil_iff.mpr fun c _ => c.effects_read.1
  rw [effects, List.filterMap_append, selection_, List.append_nil]
  split
  · rename_i none_
    rw [List.isEmpty_iff.mp none_]
    rfl
  · rw [List.filterMap_flatMap, List.map_filterMap]
    induction ce.projection with
    | nil => rfl
    | cons p ps ih =>
        rw [List.flatMap_cons, List.filterMap_cons, ih, p.effects_read.1]
        cases p.constant? <;> rfl

theorem effects_clauses (ce : ConstraintExpr) :
    (ce.effects dds).filterMap Effect.clause? = ce.selection.map (·.clause dds storeId Token.name) := by
  have projection_ : (ce.projection.flatMap (ProjClause.effects dds)).filterMap Effect.clause? = [] := by
    rw [List.filterMap_flatMap]
    exact List.flatMap_eq_nil_iff.mpr fun p _ => p.effects_read.2
  have first : (if ce.projection.isEmpty then [Effect.mark (BaseType.idsIn dds)]
      else ce.projection.flatMap (ProjClause.effects dds)).filterMap Effect.clause? = [] := by
    split
    · rfl
    · exact projection_
  rw [effects, List.filterMap_append, first, List.nil_append, List.filterMap_flatMap]
  induction ce.selection with
  | nil => rfl
  | cons c cs ih => rw [List.flatMap_cons, List.map_cons, ih, c.effects_read.2, List.singleton_append]

variable {ce : ConstraintExpr}

theorem effects_of_projection {p : ProjClause} (mem : p ∈ ce.projection) {e : Effect} (effect : e ∈ p.effects dds) :
    e ∈ ce.effects dds := by
  have some_ : ¬ce.projection.isEmpty := fun none_ => by
    rw [List.isEmpty_iff.mp none_] at mem
    cases mem
  rw [effects, if_neg some_]
  exact List.mem_append_left _ (List.mem_flatMap.mpr ⟨p, mem, effect⟩)

theorem effects_of_selection {c : ClauseText} (mem : c ∈ ce.selection) {r : RValueText} (value : r ∈ c.values)
    {e : Effect} (effect : e ∈ r.effects dds) : e ∈ ce.effects dds := by
  refine List.mem_append_right _ (List.mem_flatMap.mpr ⟨c, mem, ?_⟩)
  exact List.mem_append_left _ (List.mem_flatMap.mpr ⟨r, value, effect⟩)

end ConstraintExpr

end

section

variable {dds : List BaseType} {ce : ConstraintExpr} {s s' : State}

/-- What is recorded and resolved is what is written when all names, words and values are kept. -/
theorem recorded_iff (follows : Follows s (ce.effects dds) s') (found : ∀ p ∈ ce.projection, p.Found dds)
    (found' : ∀ c ∈ ce.selection, ∀ r ∈ c.values, r.Found dds) :
    (s'.expr = s.expr ++ ce.selection.map (·.clause dds id Token.whole) ∧
      ∀ l ∈ ce.lookups, ∀ b, (Dds.var dds l.1).1 = some b → l.1 = l.2) ↔
    (∀ p ∈ ce.projection, ∀ l ∈ p.lookups, l.1 = l.2) ∧ ∀ c ∈ ce.selection, ∀ r ∈ c.values, r.Kept dds := by
  rw [follows.expr, ConstraintExpr.effects_clauses, List.append_cancel_left_eq, List.map_inj_left,
    ConstraintExpr.lookups]
  constructor
  · rintro ⟨recorded, resolved⟩
    refine ⟨fun p mem l mem' => ?_, fun c mem r mem' => ?_⟩
    · obtain ⟨b, var⟩ := ProjClause.lookups_resolve (found p mem) mem'
      exact resolved l (List.mem_append_left _ (List.mem_flatMap.mpr ⟨p, mem, mem'⟩)) b var
    · refine (value_kept_iff (found' c mem r mem')).mp ⟨(clause_eq_iff c _ _).mp (recorded c mem) r mem', ?_⟩
      intro l mem''
      refine resolved l (List.mem_append_right _ (List.mem_flatMap.mpr ⟨c, mem, ?_⟩))
      exact List.mem_flatMap.mpr ⟨r, mem', mem''⟩
  · rintro ⟨names, values⟩
    refine ⟨fun c mem => ?_, fun l mem => ?_⟩
    · refine (clause_eq_iff c _ _).mpr fun r mem' => ?_
      exact ((value_kept_iff (found' c mem r mem')).mpr (values c mem r mem')).1
    · rcases List.mem_append.mp mem with mem | mem
      · obtain ⟨p, inside, mem'⟩ := List.mem_flatMap.mp mem
        exact fun _ _ => names p inside l mem'
      · obtain ⟨c, inside, mem'⟩ := List.mem_flatMap.mp mem
        obtain ⟨r, inside', mem''⟩ := List.mem_flatMap.mp mem'
        exact ((value_kept_iff (found' c inside r inside')).mpr (values c inside r inside')).2 l mem''

theorem lists_iff (follows : Follows s (ce.effects dds) s') (found : ∀ p ∈ ce.projection, p.Found dds)
    (names : ∀ p ∈ ce.projection, ∀ l ∈ p.lookups, l.1 = l.2) :
    (∀ p ∈ ce.projection, ∀ b ∈ p.brackets Token.whole id, Sliced dds s' b.1 b.2.1) ↔
      ∀ p ∈ ce.projection, ∀ b ∈ p.applied, ∀ e ∈ bracketEffects dds b.1 b.2.1, e.Lasts s (ce.effects dds) := by
  refine forall₂_congr fun p mem => ?_
  rw [← (ProjClause.names_eq (names p mem)).1]
  refine forall₂_congr fun b mem' => ?_
  have sliceable := (found p mem).2 b mem'
  rw [sliced_iff sliceable]
  refine forall₂_congr fun e effect => ?_
  refine applied_iff follows (ConstraintExpr.effects_of_projection mem ?_) (unstarred_of_sliceable sliceable effect)
  exact List.mem_append_left _ (List.mem_append_right _ (List.mem_flatMap.mpr ⟨b, mem', effect⟩))

theorem named_of_names (follows : Follows s (ce.effects dds) s') (found : ∀ p ∈ ce.projection, p.Found dds)
    (names : ∀ p ∈ ce.projection, ∀ l ∈ p.lookups, l.1 = l.2) {p : ProjClause} (mem : p ∈ ce.projection) {n : Name}
    (last : p.last Token.whole id = some n) : ∃ b, (Dds.var dds n).1 = some b ∧ b.id ∈ s'.marked := by
  rw [← (ProjClause.names_eq (names p mem)).2] at last
  obtain ⟨b, var, inside⟩ := (found p mem).1 n last
  refine ⟨b, var, ?_⟩
  rw [follows.marked]
  refine List.mem_append_right _ (mem_marked.mpr ⟨marks dds n, ?_, inside _ (by cases b <;> exact List.mem_cons_self)⟩)
  refine ConstraintExpr.effects_of_projection mem (List.mem_append_right _ ?_)
  rw [last]
  exact List.mem_singleton_self _

/-- What a word of the selection names is flagged. -/
theorem selected_of_word (follows : Follows s (ce.effects dds) s')
    (values : ∀ c ∈ ce.selection, ∀ r ∈ c.values, r.Kept dds) {text : Name} {b : BaseType}
    (selects : ce.Selects dds (.id (.word text)) b) : b.id ∈ s'.in_selection := by
  obtain ⟨⟨c, mem, mem'⟩, named⟩ := selects
  have kept := (value_kept_iff (r := .id (.word text)) trivial).mpr (values c mem _ mem')
  rw [← kept.1, RValueText.value] at named
  cases var : (Dds.var dds (Dap4.www2id (storeId text))).1 with
  | none =>
      rw [var] at named
      cases named
  | some b' =>
      rw [var] at named
      cases named
      rw [follows.in_selection]
      refine List.mem_append_right _ (mem_selected.mpr ⟨selectionIds b, ?_, ?_⟩)
      · refine ConstraintExpr.effects_of_selection mem mem' ?_
        rw [RValueText.effects, var]
        exact List.mem_singleton_self _
      · cases b <;> exact List.mem_cons_self

/-- A constraint takes effect as a whole when it is one of those, and not otherwise. -/
theorem takesEffect_iff {rest : ConstraintExpr} (unmarked : s.marked = [])
    (ok : parse_constraint dds ce s = .ok (s', rest)) : TakesEffect dds ce s s' rest ↔ ce.Kept dds s := by
  rcases follows_parse_constraint ok with ⟨rfl, last, follows, found, found'⟩ | ⟨unread, early⟩
  · have recorded := recorded_iff follows found found'
    have constants : s'.constants = s.constants ++ ce.projection.filterMap ProjClause.constant? ↔
        ∀ p ∈ ce.projection, ∀ c, p.constant? = some c → c.read = c := by
      rw [follows.constants, ConstraintExpr.effects_constants, List.append_cancel_left_eq, map_read_eq_iff]
      simp only [List.mem_filterMap]
      exact ⟨fun all p mem c is => all c ⟨p, mem, is⟩, fun all c some_ => by
        obtain ⟨p, mem, is⟩ := some_
        exact all p mem c is⟩
    have marked : s'.marked = (ce.effects dds).flatMap Effect.marked := by
      rw [follows.marked, unmarked, List.nil_append]
    have selected (x : Nat) : x ∈ s'.in_selection ↔
        x ∈ s.in_selection ∨ ∃ ids, .select ids ∈ ce.effects dds ∧ x ∈ ids := by
      rw [follows.in_selection, List.mem_append, mem_selected]
    constructor
    · intro effect
      obtain ⟨names, values⟩ := recorded.mp ⟨effect.recorded, effect.resolved⟩
      refine ⟨last, names, constants.mp effect.constants, (lists_iff follows found names).mp effect.sliced, ?_, values, ?_⟩
      · intro some_ ids mem x inside
        have only := effect.only
        rw [if_neg some_, marked] at only
        exact only x (mem_marked.mpr ⟨ids, mem, inside⟩)
      · intro r b selects _
        exact (selected b.id).mp (effect.selected r b selects)
    · intro kept
      obtain ⟨recorded_, resolved⟩ := recorded.mpr ⟨kept.names, kept.values⟩
      refine ⟨rfl, fun p mem n is => named_of_names follows found kept.names mem is, constants.mpr kept.constants,
        (lists_iff follows found kept.names).mpr kept.lists, ?_, recorded_, ?_, resolved⟩
      · split
        · rename_i none_
          intro x inside
          rw [marked, ConstraintExpr.effects, none_]
          exact mem_marked.mpr ⟨_, List.mem_cons_self, inside⟩
        · rename_i some_
          intro x inside
          rw [marked] at inside
          obtain ⟨ids, mem, inside⟩ := mem_marked.mp inside
          exact kept.marks some_ ids mem x inside
      · intro r b selects
        by_cases word : ∃ text, r = .id (.word text)
        · obtain ⟨text, rfl⟩ := word
          exact selected_of_word follows kept.values selects
        · rw [selected]
          exact kept.selects r b selects (fun text is => word ⟨text, is⟩)
  · constructor
    · intro effect
      exact absurd effect.read unread
    · intro kept
      exact absurd kept.last early

end

/-! A dataset with one variable, which is projected with and without a constant array before it. -/

section

def oneVar : List BaseType := [.simple 0 ['x']]

def untouched : State := ⟨[], [], fun _ => .create, fun _ => none, [], []⟩

def sevenByte : ConstArray := ⟨.byte, ['1'], [['7']]⟩

def projectX : ConstraintExpr := ⟨[.name (.word ['x'])], []⟩

def constantFirst : ConstraintExpr := ⟨[.const sevenByte, .name (.word ['x'])], []⟩

private theorem read_x : Token.name (.word ['x']) = ['x'] := by decide

private theorem var_x : Dds.var oneVar ['x'] = (some (.simple 0 ['x']), []) := Dds.var_top rfl

/-- The clause behind a constant array is dropped, and no error says so. -/
theorem constant_drops_clause : ¬∀ (dds : List BaseType) (ce : ConstraintExpr) (s s' : State) (rest : ConstraintExpr),
    s.marked = [] → parse_constraint dds ce s = .ok (s', rest) → TakesEffect dds ce s s' rest := by
  intro all
  have effect := all oneVar constantFirst untouched (untouched.addConstant sevenByte.read)
    projectX rfl rfl
  obtain ⟨b, -, mem⟩ := effect.named (.name (.word ['x'])) (by simp [constantFirst]) ['x'] (by decide)
  cases mem

private theorem mark_x : Dds.mark oneVar ['x'] = .ok [0] := by
  rw [Dds.mark, var_x]
  rfl

theorem takesEffect_x : TakesEffect oneVar projectX untouched (untouched.mark [0]) ⟨[], []⟩ := by
  have parsed : parse_constraint oneVar projectX untouched = .ok (untouched.mark [0], ⟨[], []⟩) := by
    simp only [parse_constraint, projectX, projection, proj_clause, Token.check, read_x, var_x, mark_x, selection, bind,
      Except.bind, pure, Except.pure]
  have marks_x : marks oneVar ['x'] = [0] := by rw [marks, mark_x]; rfl
  refine (takesEffect_iff rfl parsed).mpr ⟨⟨?_, ?_⟩, ?_, ?_, ?_, ?_, ?_, ?_⟩
  · exact fun _ mem => absurd mem List.not_mem_nil
  · exact fun _ _ => .inr rfl
  · simp only [projectX, List.forall_mem_singleton]
    decide
  · simp [projectX, ProjClause.constant?]
  · simp [projectX, ProjClause.applied, ProjClause.brackets]
  · intro _ ids mem x inside
    have only : ids = [0] := by
      simpa [projectX, ConstraintExpr.effects, ProjClause.effects, ProjClause.constant?, ProjClause.applied,
        ProjClause.brackets, bracketsEffects, ProjClause.markedName, ProjClause.last, read_x, marks_x] using mem
    subst only
    refine ⟨_, List.mem_singleton_self _, ['x'], .simple 0 ['x'], by decide, by rw [var_x], .inl ?_⟩
    exact inside
  · exact fun _ mem => absurd mem List.not_mem_nil
  · rintro r b ⟨⟨c, mem, _⟩, _⟩
    cases mem

end

end CeParser

end Libdap.Dap2
