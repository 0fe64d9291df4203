import Libdap.Dap2.SequenceIntern
import Libdap.Dap2.SequenceRows
import Libdap.Dap2.SequenceValues
import Libdap.Dap2.SequenceWire

/-! # What comes back of nested Sequences

The rows that are written for a Sequence are got back by a client that declares the variables
of each level, when every value of them comes back. So a client has the rows of a table that a
request is for, and interning gives the same rows as sending them and getting them back.
-/

namespace Libdap.Dap2

variable {V K R S : Type}

/-! ## Getting rows back -/

namespace BaseTypeRow

mutual
/-- What a client holds of a row. -/
def map (f : V → R) : BaseTypeRow V → BaseTypeRow R
  | mk vars child => mk (f vars) (mapRows f child)

def mapRows (f : V → R) : List (BaseTypeRow V) → List (BaseTypeRow R)
  | [] => []
  | row :: rows => map f row :: mapRows f rows
end

end BaseTypeRow

namespace Wire

variable (wire : Wire V K R S)

/-- The variables of a row that come back to a client which declares these. -/
def ComeBack (k : K) (v : V) : Prop := wire.Exact v ∧ wire.request v = k

/-- What was written is got back, with enough turns for the loops. -/
def GetsBack (fields : List K) (out : List (Event V)) (rows : List (BaseTypeRow V)) : Prop :=
  ∃ bytes, wire.octets out = some bytes ∧ ∀ s rest, wire.At s (bytes ++ rest) → ∃ t, wire.At t rest ∧
    ∃ enough, ∀ fuel ≥ enough, wire.deserialize fuel fields s = some (BaseTypeRow.mapRows wire.result rows, t)

variable {wire}

theorem octets_append (out more : List (Event V)) :
    wire.octets (out ++ more) = (do return (← wire.octets out) ++ (← wire.octets more)) := by
  induction out with
  | nil => cases h : wire.octets more <;> simp [octets, h]
  | cons event out ih =>
      cases event with
      | startOfInstance level =>
          simp only [List.cons_append, octets, ih]
          cases wire.octets out <;> cases wire.octets more <;> simp
      | endOfSequence level =>
          simp only [List.cons_append, octets, ih]
          cases wire.octets out <;> cases wire.octets more <;> simp
      | vars v =>
          simp only [List.cons_append, octets, ih]
          cases wire.put v <;> cases wire.octets out <;> cases wire.octets more <;> simp

theorem octets_startOfInstance (level : Nat) (v : V) (out : List (Event V)) :
    wire.octets (.startOfInstance level :: .vars v :: out) = (do
      return wire.putMarker Dap2.startOfInstance ++ ((← wire.put v) ++ (← wire.octets out))) := by
  simp only [octets]
  cases wire.put v <;> cases wire.octets out <;> simp

/-- `deserialize` of one row. -/
def getRow (wire : Wire V K R S) (k : K) (fields : List K) (fuel : Nat) (s : S) : Option (BaseTypeRow R × S) := do
  let (vars, s) ← wire.get k s
  let (child, s) ← wire.deserialize fuel fields s
  return (.mk vars child, s)

theorem getRows_of_rows {k : K} {fields : List K} {level : Nat} {below : BaseTypeRow V → List (Event V)}
    {rows : List (BaseTypeRow V)}
    (each : ∀ row ∈ rows, wire.ComeBack k row.vars ∧ wire.GetsBack fields (below row) row.child) :
    ∃ bytes, wire.octets (rows.flatMap (fun row => .startOfInstance level :: .vars row.vars :: below row) ++
        [.endOfSequence level]) = some bytes ∧
      ∀ s rest, wire.At s (bytes ++ rest) → ∃ t, wire.At t rest ∧ ∃ enough, ∀ fuel ≥ enough,
        ∀ turns > rows.length, wire.getRows (wire.getRow k fields fuel) turns s =
          some (BaseTypeRow.mapRows wire.result rows, t) := by
  induction rows with
  | nil =>
      refine ⟨wire.putMarker endOfSequence, by simp [octets], fun s rest place => ?_⟩
      obtain ⟨t, got, placed⟩ := wire.marker _ s rest place
      refine ⟨t, placed, 0, fun fuel _ turns more => ?_⟩
      obtain ⟨turns, rfl⟩ := Nat.exists_eq_succ_of_ne_zero (Nat.ne_of_gt more)
      simp [getRows, got, BaseTypeRow.mapRows]
  | cons row rows ih =>
      rw [List.forall_mem_cons] at each
      obtain ⟨⟨⟨⟨first, putFirst, getFirst⟩, asked⟩, child, putChild, getChild⟩, others⟩ := each
      obtain ⟨bytes, putRows, getOthers⟩ := ih others
      refine ⟨wire.putMarker startOfInstance ++ (first ++ child) ++ bytes, ?_, fun s rest place => ?_⟩
      · rw [List.flatMap_cons, List.append_assoc, octets_append, octets_startOfInstance, putFirst, putChild, putRows]
        rfl
      · simp only [List.append_assoc] at place
        obtain ⟨afterMarker, gotMarker, place⟩ := wire.marker _ s _ place
        obtain ⟨afterVars, gotVars, place⟩ := getFirst afterMarker _ place
        obtain ⟨afterChild, place, enoughChild, gotChild⟩ := getChild afterVars _ place
        obtain ⟨t, placed, enoughOthers, gotOthers⟩ := getOthers afterChild rest place
        refine ⟨t, placed, max enoughChild enoughOthers, fun fuel more turns some_ => ?_⟩
        obtain ⟨turns, rfl⟩ := Nat.exists_eq_succ_of_ne_zero (Nat.ne_zero_of_lt some_)
        have gotRow : wire.getRow k fields fuel afterMarker =
            some (.mk (wire.result row.vars) (BaseTypeRow.mapRows wire.result row.child), afterChild) := by
          rw [← asked, getRow, gotVars]
          simp [gotChild fuel (le_trans (le_max_left _ _) more)]
        have rest' := gotOthers fuel (le_trans (le_max_right _ _) more) turns (Nat.lt_of_succ_lt_succ some_)
        have mapped : row.map wire.result =
            .mk (wire.result row.vars) (BaseTypeRow.mapRows wire.result row.child) := by
          obtain ⟨vars, child⟩ := row
          rw [BaseTypeRow.map]
          rfl
        have other : startOfInstance ≠ endOfSequence := by decide
        simp [getRows, gotMarker, other, gotRow, rest', BaseTypeRow.mapRows, mapped]

/-- Rows are got back when the variables of each are, and all that is below it. -/
theorem getsBack_rows {k : K} {fields : List K} {level : Nat} {below : BaseTypeRow V → List (Event V)}
    {rows : List (BaseTypeRow V)}
    (each : ∀ row ∈ rows, wire.ComeBack k row.vars ∧ wire.GetsBack fields (below row) row.child) :
    wire.GetsBack (k :: fields) (rows.flatMap (fun row => .startOfInstance level :: .vars row.vars :: below row) ++
      [.endOfSequence level]) rows := by
  obtain ⟨bytes, puts, gets⟩ := getRows_of_rows each
  refine ⟨bytes, puts, fun s rest place => ?_⟩
  obtain ⟨t, placed, enough, got⟩ := gets s rest place
  refine ⟨t, placed, max enough (rows.length + 1), fun fuel more => ?_⟩
  exact got fuel (le_trans (le_max_left _ _) more) fuel (le_trans (le_max_right _ _) more)

/-- What is written for rows of so many levels is got back. -/
theorem getsBack_events {depth level : Nat} {fields : List K} (length : fields.length = depth + 1)
    {rows : List (BaseTypeRow V)} (holds : ∀ row ∈ rows, row.Holds (fields.map wire.ComeBack)) :
    wire.GetsBack fields (rows.flatMap (BaseTypeRow.events depth level) ++ [.endOfSequence level]) rows := by
  induction depth generalizing level fields rows with
  | zero =>
      obtain ⟨k, rfl⟩ := List.length_eq_one_iff.mp length
      refine getsBack_rows fun row mem => ?_
      obtain ⟨vars, child⟩ := row
      obtain ⟨comesBack, rfl⟩ := holds _ mem
      exact ⟨comesBack, [], rfl, fun s rest place => ⟨s, place, 0, fun _ _ => rfl⟩⟩
  | succ depth ih =>
      obtain ⟨k, fields, rfl⟩ := List.exists_cons_of_length_eq_add_one length
      obtain ⟨k', fields, rfl⟩ := List.exists_cons_of_length_eq_add_one (Nat.succ.inj length)
      have shape : ∀ row : BaseTypeRow V, BaseTypeRow.events (depth + 1) level row =
          .startOfInstance level :: .vars row.vars :: (row.child.flatMap (BaseTypeRow.events depth (level + 1)) ++
            [.endOfSequence (level + 1)]) := fun row => by simp [BaseTypeRow.events]
      rw [funext shape]
      refine getsBack_rows fun row mem => ?_
      obtain ⟨vars, child⟩ := row
      obtain ⟨comesBack, below⟩ := holds _ mem
      exact ⟨comesBack, ih (Nat.succ.inj length) below⟩

end Wire

/-! ## New nests -/

namespace Level

/-- What `fresh` sets beside the numbers of the constraint. -/
theorem fresh_eq (l : Level V) (rows : List (Row V)) (leaf top : Bool) :
    l.fresh rows leaf top = { l.unconstrained rows leaf top with
      startingRowNumber := (l.fresh rows leaf top).startingRowNumber
      rowStride := (l.fresh rows leaf top).rowStride
      endingRowNumber := (l.fresh rows leaf top).endingRowNumber } := by
  obtain ⟨vars, constraint⟩ := l
  cases constraint with
  | none => rfl
  | some c => simp [fresh, RowConstraint.set, Sequence.setRowNumberConstraint]

@[simp]
theorem vars_fresh (l : Level V) (rows : List (Row V)) (leaf top : Bool) : (l.fresh rows leaf top).vars = l.vars := by
  rw [fresh_eq]
  rfl

@[simp]
theorem rows_fresh (l : Level V) (rows : List (Row V)) (leaf top : Bool) : (l.fresh rows leaf top).rows = rows := by
  rw [fresh_eq]
  rfl

@[simp]
theorem ahead_fresh (l : Level V) (rows : List (Row V)) (leaf top : Bool) : (l.fresh rows leaf top).ahead = rows := by
  rw [fresh_eq]
  rfl

theorem valid_fresh (l : Level V) (rows : List (Row V)) (leaf top : Bool) : (l.fresh rows leaf top).tags.Valid := by
  obtain ⟨vars, constraint⟩ := l
  cases constraint with
  | none => exact ⟨⟨le_rfl, by norm_num [Tags.firstRow, fresh, unconstrained, Sequence.tags]⟩,
      ⟨by norm_num [fresh, unconstrained, Sequence.tags], by norm_num [fresh, unconstrained, Sequence.tags]⟩, .inl rfl⟩
  | some c =>
      obtain ⟨start, stride, stop, ordered, stop_lt, stride_lt⟩ := c
      have set : (⟨vars, some ⟨start, stride, stop, ordered, stop_lt, stride_lt⟩⟩ : Level V).fresh rows leaf top =
          { (⟨vars, none⟩ : Level V).unconstrained rows leaf top with
            startingRowNumber := start, rowStride := stride, endingRowNumber := stop } := by
        simp only [fresh, RowConstraint.set, Sequence.setRowNumberConstraint, if_neg (show ¬(stop : Int) < start by omega)]
        rfl
      rw [set]
      refine ⟨?_, ⟨Int.natCast_nonneg stride, by simp only [Sequence.tags]; omega⟩, .inr ?_⟩
      · simp only [Sequence.tags, Tags.firstRow]
        omega
      · simp only [Sequence.tags, Tags.firstRow]
        omega

theorem tagged_below (levels : List (Level V)) : Tagged ((below levels).map Sequence.tags) ∧
    ∀ t ∈ (below levels).map Sequence.tags, t.topMost = false ∧ t.Valid := by
  induction levels with
  | nil => exact ⟨trivial, by simp [below]⟩
  | cons l levels ih =>
      have length : (below levels).isEmpty = levels.isEmpty := by cases levels <;> rfl
      have leaf : (l.fresh [] levels.isEmpty false).tags.leafSequence = levels.isEmpty := by rw [fresh_eq]; rfl
      have top : (l.fresh [] levels.isEmpty false).tags.topMost = false := by rw [fresh_eq]; rfl
      rw [below, List.map_cons]
      refine ⟨⟨?_, fun t mem => (ih.2 t mem).1, ih.1⟩, List.forall_mem_cons.mpr ⟨⟨top, valid_fresh _ _ _ _⟩, ih.2⟩⟩
      rw [leaf, List.isEmpty_map, length]

theorem length_below (levels : List (Level V)) : (below levels).length = levels.length := by
  induction levels with
  | nil => rfl
  | cons l levels ih => simp [below, ih]

/-- Nothing has been read or written. -/
theorem forall_mem_below {P : Sequence V → Prop} (levels : List (Level V))
    (each : ∀ (l : Level V) (leaf : Bool), P (l.fresh [] leaf false)) : ∀ s ∈ below levels, P s := by
  induction levels with
  | nil => simp [below]
  | cons l levels ih => exact List.forall_mem_cons.mpr ⟨each l _, ih⟩

variable (l : Level V) (levels : List (Level V)) (table : List (Row V))

theorem tagged_nest : Tagged (l.nest levels table).tags := by
  have leaf : (l.fresh table levels.isEmpty true).tags.leafSequence = levels.isEmpty := by rw [fresh_eq]; rfl
  have length : (below levels).isEmpty = levels.isEmpty := by cases levels <;> rfl
  obtain ⟨tagged, tops⟩ := tagged_below levels
  refine ⟨leaf.trans ?_, fun t mem => (tops t mem).1, tagged⟩
  rw [← length]
  exact List.isEmpty_map.symm

theorem valid_nest : ∀ t ∈ (l.nest levels table).tags, t.Valid :=
  List.forall_mem_cons.mpr ⟨valid_fresh _ _ _ _, fun t mem => ((tagged_below levels).2 t mem).2⟩

theorem idle_nest (leafToo : Bool) : ∀ s ∈ (l.nest levels table).all, Idle leafToo s := by
  refine List.forall_mem_cons.mpr ⟨fun _ => ?_, forall_mem_below levels fun l leaf _ => ?_⟩
  · show (l.fresh table levels.isEmpty true).rowNumber = -1
    rw [fresh_eq]
    rfl
  · rw [fresh_eq]
    rfl

theorem silent_nest : ∀ s ∈ (l.nest levels table).all, s.Silent := by
  refine List.forall_mem_cons.mpr ⟨fun _ => ?_, forall_mem_below levels fun l leaf _ => ?_⟩
  · show (l.fresh table levels.isEmpty true).wroteSoi = false
    rw [fresh_eq]
    rfl
  · rw [fresh_eq]
    rfl

theorem stands_nest : (l.nest levels table).Stands table := by
  refine .inl ⟨List.forall_mem_cons.mpr ⟨?_, forall_mem_below levels fun l leaf => ?_⟩, ?_⟩
  · show (l.fresh table levels.isEmpty true).readP = false
    rw [fresh_eq]
    rfl
  · rw [fresh_eq]
    rfl
  · exact (ahead_fresh l table levels.isEmpty true).symm

theorem noSoi_nest : (l.nest levels table).noSoi = l.nest levels table := by
  have same : ∀ (l : Level V) rows leaf top, (l.fresh rows leaf top).noSoi = l.fresh rows leaf top := by
    intro l rows leaf top
    rw [fresh_eq]
    rfl
  have others : (below levels).map Sequence.noSoi = below levels := by
    refine (List.map_congr_left ?_).trans (List.map_id _)
    exact forall_mem_below levels fun l leaf => same l [] leaf false
  unfold nest Nest.noSoi
  rw [same, others]

theorem top_nest : (l.nest levels table).self.topMost = true := by
  show (l.fresh table levels.isEmpty true).topMost = true
  rw [fresh_eq]
  rfl

end Level

/-! ## Sending, getting back and interning -/

variable (wire : Wire V K R S) (selection : List V → Bool)

/-- A client that declares the variables of each level gets the rows that a request is for. -/
def Faithful (l : Level V) (levels : List (Level V)) (table : List (Row V)) (fields : List K) : Prop :=
  ∃ n out, (l.nest levels table).serialize selection = .ok (n, out) ∧
    wire.GetsBack fields out (chosen selection (l.nest levels table).tags [] table)

/-- Interning throws what sending throws, or gives the rows that a client gets. -/
def InternedAsSent (l : Level V) (levels : List (Level V)) (table : List (Row V)) (fields : List K) : Prop :=
  (∀ e, (l.nest levels table).serialize selection = .error e →
    e = .backingUp ∧ (l.nest levels table).internData selection = .error .backingUp) ∧
  (∀ e, (l.nest levels table).internData selection = .error e →
    e = .backingUp ∧ (l.nest levels table).serialize selection = .error .backingUp) ∧
  ∀ n out, (l.nest levels table).serialize selection = .ok (n, out) →
    ∃ n' values, (l.nest levels table).internData selection = .ok (n', values) ∧ wire.GetsBack fields out values

variable {wire} {selection}

namespace Level

variable (selection) (l : Level V) (levels : List (Level V)) (table : List (Row V))

theorem serialize_inStep : InStep .unread
    (SendsInstance levels.length [] (l.nest levels table))
    ((l.nest levels table).serializeNest selection levels.length [])
    ((l.nest levels table).walk selection levels.length []) := by
  have inStep := Nest.serializeNest_inStep selection levels.length [] (l.nest levels table) (tagged_nest l levels table)
    (length_below levels) (silent_nest l levels table)
  rwa [noSoi_nest] at inStep

theorem unsent_nil : ∀ s ∈ ([] : List (Sequence V)), s.unsentData = true := List.forall_mem_nil _

/-- The stack of `intern_data` leads to the values of the top-most Sequence. -/
def place : Place ([] : List (Sequence V)) ⟨[], [[]]⟩ where
  pend := []
  done := []
  path := []
  rest := []
  held := []
  split := rfl
  unsent := unsent_nil
  sent := List.forall_mem_nil _
  stack := rfl
  leads := rfl

theorem internData_inStep : InStep .unread (InternsInstance place (l.nest levels table))
    (Nest.internDataPrivate selection levels.length [] (l.nest levels table) ⟨[], [[]]⟩)
    ((l.nest levels table).walk selection levels.length []) :=
  Nest.internDataPrivate_inStep selection levels.length place (l.nest levels table) (tagged_nest l levels table)
    (length_below levels)

theorem serialize_eq : (l.nest levels table).serialize selection = (do
    let (_, n, out) ← (l.nest levels table).serializeNest selection levels.length []
    return (n, out)) := by
  rw [Nest.serialize]
  exact congrArg (fun depth => Nest.serializeNest selection depth [] (l.nest levels table) >>= _) (length_below levels)

theorem internData_eq : (l.nest levels table).internData selection = (do
    let (_, n, m) ← Nest.internDataPrivate selection levels.length [] (l.nest levels table) ⟨[], [[]]⟩
    return (n, m.values)) := by
  rw [Nest.internData]
  exact congrArg (fun depth => Nest.internDataPrivate selection depth [] (l.nest levels table) ⟨[], [[]]⟩ >>= _)
    (length_below levels)

/-- What is written for a table, when a walk through it gives these rows. -/
theorem getsBack_of_sends {fields : List K} (length : fields.length = levels.length + 1) {sent : Sent V} {w : Walked V}
    (sends : SendsInstance levels.length [] (l.nest levels table) sent w)
    (holds : ∀ row ∈ w.rows, row.Holds (fields.map wire.ComeBack)) : wire.GetsBack fields sent.2.2 w.rows := by
  have out := sends.out
  rw [top_nest] at out
  have written : sent.2.2 = w.rows.flatMap (BaseTypeRow.events levels.length 0) ++ [.endOfSequence 0] := by
    rw [out]
    simp [Sequence.partTwo]
  rw [written]
  exact Wire.getsBack_events length holds

end Level

/-- The rows that a request is for come back if each instance that is come to has a row, no
    instance of the leaf is left before its end for another one, the numbers of rows are
    `int`s, and the variables that are sent come back. -/
theorem sequences_faithful (wire : Wire V K R S) (selection : List V → Bool) (l : Level V) (levels : List (Level V))
    (table : List (Row V)) (fields : List K) (length : fields.length = levels.length + 1)
    (proper : Proper selection true (l.nest levels table).tags [] table)
    (comeBack : ∀ row ∈ chosen selection (l.nest levels table).tags [] table,
      row.Holds (fields.map wire.ComeBack)) : Faithful wire selection l levels table fields := by
  obtain ⟨w, walked, rows, -⟩ := Nest.walk_eq selection levels.length true [] (l.nest levels table) table
    (Level.tagged_nest l levels table) (Level.length_below levels) (Level.valid_nest l levels table)
    (Level.stands_nest l levels table) (Level.idle_nest l levels table true) proper
  have inStep := Level.serialize_inStep selection l levels table
  rw [walked] at inStep
  obtain ⟨sent, serialized, sends⟩ := inStep.of_ok
  refine ⟨sent.2.1, sent.2.2, ?_, ?_⟩
  · rw [Level.serialize_eq, serialized]
    rfl
  · rw [← rows] at comeBack ⊢
    exact Level.getsBack_of_sends l levels table length sends comeBack

section

open Marshal.Xdr Variables

/-- Two rows with two rows below each. -/
def words : List (Row RowVars) :=
  [.mk (word [65]) [.mk (word [66]) [], .mk (word [67]) []],
    .mk (word [68]) [.mk (word [69]) [], .mk (word [70]) []]]

theorem comeBack_letter (b : UInt8) (letter : b ≠ 0) :
    (rowWire (standard .little)).ComeBack [.leaf .str] (word [b]) :=
  ⟨comeBack_word _ (by simp [GoodStr, letter]), rfl⟩

theorem words_faithful : Faithful (rowWire (standard .little)) (fun _ => true) ⟨word [], none⟩
    [⟨word [], none⟩] words [[.leaf .str], [.leaf .str]] := by
  refine sequences_faithful _ _ _ _ _ _ rfl (by decide) ?_
  have rows : chosen (fun _ => true) ((⟨word [], none⟩ : Level RowVars).nest [⟨word [], none⟩] words).tags [] words =
      [.mk (word [65]) [.mk (word [66]) [], .mk (word [67]) []],
        .mk (word [68]) [.mk (word [69]) [], .mk (word [70]) []]] := rfl
  rw [rows]
  simp [BaseTypeRow.Holds, comeBack_letter]

/-- Only the first row of each instance below is asked for: the second instance is left behind. -/
theorem cutShort_thrown : ¬∀ (selection : List RowVars → Bool) (l : Level RowVars) (levels : List (Level RowVars))
    (table : List (Row RowVars)) (fields : List (List (Decl Leaf))), fields.length = levels.length + 1 →
    AllHold (fields.map (rowWire (standard .little)).ComeBack) (l.nest levels table).all →
    Faithful (rowWire (standard .little)) selection l levels table fields := by
  intro claim
  obtain ⟨n, out, serialized, -⟩ := claim (fun _ => true) ⟨word [65], none⟩
    [⟨word [65], some ⟨0, 1, 0, le_rfl, by norm_num, by norm_num⟩⟩] words [[.leaf .str], [.leaf .str]] rfl (by
      simp [AllHold, Level.nest, Level.below, Nest.all, words, Row.Holds, comeBack_letter])
  have thrown : ((⟨word [65], none⟩ : Level RowVars).nest
      [⟨word [65], some ⟨0, 1, 0, le_rfl, by norm_num, by norm_num⟩⟩] words).serialize (fun _ => true) =
        .error .backingUp := rfl
  rw [thrown] at serialized
  cases serialized

end

/-- Interning and sending agree if each instance of a parent that is come to has a row, and all
    that is or will be in the variables comes back. -/
theorem sequences_internedAsSent (wire : Wire V K R S) (selection : List V → Bool) (l : Level V)
    (levels : List (Level V)) (table : List (Row V)) (fields : List K) (length : fields.length = levels.length + 1)
    (furnished : Nest.Furnished false (l.nest levels table).tags table)
    (comeBack : AllHold (fields.map wire.ComeBack) (l.nest levels table).all) :
    InternedAsSent wire selection l levels table fields := by
  have raises := Nest.walk_raises selection levels.length [] (l.nest levels table) table
    (Level.tagged_nest l levels table) (Level.length_below levels) (Level.valid_nest l levels table)
    (fun _ => Level.stands_nest l levels table) (Level.idle_nest l levels table false) furnished
  have holds := Nest.walk_holds selection levels.length [] (n := l.nest levels table)
    (fields.map wire.ComeBack) (by rw [List.length_map, length]) comeBack
  have sends := Level.serialize_inStep selection l levels table
  have interns := Level.internData_inStep selection l levels table
  unfold InternedAsSent
  rw [Level.serialize_eq, Level.internData_eq]
  cases walked : (l.nest levels table).walk selection levels.length [] with
  | error e =>
      obtain rfl : e = .backingUp := raises e walked
      rw [walked] at sends interns
      rw [sends.of_error (by decide), interns.of_error (by decide)]
      have thrown : ∀ {α : Type} {e : Failure}, (Except.error .backingUp : Except Failure α) = .error e →
          e = .backingUp := fun same => (Except.error.inj same).symm
      exact ⟨fun e same => ⟨thrown same, rfl⟩, fun e same => ⟨thrown same, rfl⟩, fun n out same => nomatch same⟩
  | ok w =>
      rw [walked] at sends interns
      obtain ⟨sent, serialized, sends⟩ := sends.of_ok
      obtain ⟨kept, interned, interns⟩ := interns.of_ok
      rw [serialized, interned]
      refine ⟨fun e same => (nomatch same), fun e same => (nomatch same), fun n out same => ?_⟩
      cases same
      have values : kept.2.2.values = w.rows := by
        rw [interns.values]
        cases w.rows <;> rfl
      refine ⟨kept.2.1, kept.2.2.values, rfl, ?_⟩
      rw [values]
      exact Level.getsBack_of_sends l levels table length sends (holds w walked).2

section

open Marshal.Xdr Variables

theorem words_internedAsSent : InternedAsSent (rowWire (standard .little)) (fun _ => true) ⟨word [65], none⟩
    [⟨word [65], none⟩] words [[.leaf .str], [.leaf .str]] := by
  refine sequences_internedAsSent _ _ _ _ _ _ rfl (fun row _ => ⟨by simp [Level.below], trivial⟩) ?_
  simp [AllHold, Level.nest, Level.below, Nest.all, words, Row.Holds, comeBack_letter]

end

/-- Octets that are put and got as they are. -/
def octetWire : Wire UInt8 Unit UInt8 (List UInt8) where
  put v := some [v]
  request _ := ()
  result v := v
  get _ s := s.head?.map fun v => (v, s.tail)
  At s bytes := s = bytes
  putMarker m := [m]
  getMarker s := s.head?.map fun m => (m, s.tail)
  marker m s rest place := ⟨rest, by rw [place]; rfl, rfl⟩

/-- The second instance of the middle Sequence is empty: the row of the first one is sent again
    without its start, and a client has nothing to read at the end. -/
theorem emptyInstance_differs : ¬∀ (selection : List UInt8 → Bool) (l : Level UInt8) (levels : List (Level UInt8))
    (table : List (Row UInt8)) (fields : List Unit), fields.length = levels.length + 1 →
    InternedAsSent octetWire selection l levels table fields := by
  intro claim
  obtain ⟨-, -, agree⟩ := claim (fun _ => true) ⟨0, none⟩ [⟨0, none⟩, ⟨0, none⟩]
    [.mk 1 [.mk 2 [.mk 3 []]], .mk 4 []] [(), (), ()] rfl
  obtain ⟨n', values, -, bytes, puts, gets⟩ := agree _ _ rfl
  cases puts
  obtain ⟨t, -, enough, got⟩ := gets _ [] rfl
  have none_ := got (enough + 16) (by omega)
  cases none_

end Libdap.Dap2
