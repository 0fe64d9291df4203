import Libdap.Dap4.SequenceTransfer
import Libdap.Foundation.Mealy

/-! # Rows that are left over

A child Sequence keeps its rows when it is read again. The rows of an outer row are sent with those of the rows
before it, and the client adds them to what it has got. Everything comes back as it was read if and only if only
the last row has child rows.
-/

namespace Libdap.Dap4.SequenceTransfer

open Marshal D4RoundTrip DataResponse Column

/-- The rows of a list behind those that are there, all counted. -/
def gather {O A R : Type} (step : O → A → O × R) (s : D4SeqValues R × O) (rows : List A) :
    (D4SeqValues R × O) × D4SeqValues R :=
  let added := Mealy.run step s.2 rows
  let values := ⟨(s.1.d_values ++ added.2).length, s.1.d_values ++ added.2⟩
  ((values, added.1), values)

/-- The rows that have been sent behind those that are there, with the length that was sent. -/
def regather {P R H : Type} (step : P → R → P × H) (s : D4SeqValues H × P) (sent : D4SeqValues R) :
    (D4SeqValues H × P) × D4SeqValues H :=
  let added := Mealy.run step s.2 sent.d_values
  ((⟨sent.d_length, s.1.d_values ++ added.2⟩, added.1), ⟨sent.d_length, s.1.d_values ++ added.2⟩)

/-! ## Sizes -/

mutual
/-- The length of every Sequence is its number of rows. -/
def Counted : (c : Column) → (marks : c.Marks) → Stored c marks → Prop
  | .var _, _, _ => True
  | .sequence columns, marks, values =>
      values.d_length = values.d_values.length ∧ ∀ row ∈ values.d_values, CountedRow columns marks row

def CountedRow : (cs : List Column) → (marks : RowMarks cs) → StoredRow cs marks → Prop
  | [], _, _ => True
  | c :: cs, (true, marks, others), (v, row) => Counted c marks v ∧ CountedRow cs others row
  | _ :: cs, (false, _, others), row => CountedRow cs others row
end

mutual
def CountedObject : (c : Column) → (marks : c.Marks) → Object c marks → Prop
  | .var _, _, _ => True
  | .sequence columns, marks, (values, objects) =>
      (∀ row ∈ values.d_values, CountedRow columns marks row) ∧ CountedObjects columns marks objects

def CountedObjects : (cs : List Column) → (marks : RowMarks cs) → Objects cs marks → Prop
  | [], _, _ => True
  | c :: cs, (_, marks, others), (object, objects) => CountedObject c marks object ∧ CountedObjects cs others objects
end

section

variable {columns : List Column} {marks : RowMarks columns} {clauses : (Column.sequence columns).Clauses}

theorem foldl_push {R O A : Type} (step : O → A → O × R) (rows : List A) (values : D4SeqValues R) (objects : O) :
    rows.foldl (fun s row => push s (step s.2 row)) (values, objects) =
      (⟨values.d_length + rows.length, values.d_values ++ (Mealy.run step objects rows).2⟩,
        (Mealy.run step objects rows).1) := by
  induction rows generalizing values objects with
  | nil => simp
  | cons row rows ih =>
      rw [List.foldl_cons, push, ih, Mealy.run, List.append_assoc, List.singleton_append, List.length_cons,
        Nat.cast_add, Nat.cast_one, add_assoc, add_comm (1 : Int)]

/-- The rows that are kept are put behind those that are there. -/
theorem read_sequence (s : D4SeqValues (StoredRow columns marks) × Objects columns marks) (rows : List (Row columns)) :
    read_sequence_values (.sequence columns) marks clauses s rows =
      gather (add_row columns marks clauses.2) s (kept clauses rows) := by
  obtain ⟨values, objects⟩ := s
  obtain ⟨d_clauses, clauses⟩ := clauses
  have folded := foldl_push (add_row columns marks clauses) (rows.filter d_clauses) values objects
  rw [List.foldl_filter] at folded
  simp only [read_sequence_values, folded]
  rfl

theorem counted_read_sequence (each : ∀ objects row, CountedObjects columns marks objects →
      CountedObjects columns marks (add_row columns marks clauses.2 objects row).1 ∧
        CountedRow columns marks (add_row columns marks clauses.2 objects row).2)
    {values : D4SeqValues (StoredRow columns marks)} {objects : Objects columns marks}
    (there : ∀ row ∈ values.d_values, CountedRow columns marks row) (inside : CountedObjects columns marks objects)
    (rows : List (Row columns)) :
    CountedObject (.sequence columns) marks
        (read_sequence_values (.sequence columns) marks clauses (values, objects) rows).1 ∧
      Counted (.sequence columns) marks
        (read_sequence_values (.sequence columns) marks clauses (values, objects) rows).2 := by
  obtain ⟨after, added⟩ := Mealy.run_keeps each inside (kept clauses rows)
  have all : ∀ row ∈ values.d_values ++ (Mealy.run (add_row columns marks clauses.2) objects (kept clauses rows)).2,
      CountedRow columns marks row := by
    intro row mem
    rcases List.mem_append.mp mem with mem | mem
    · exact there row mem
    · exact added row mem
  rw [read_sequence]
  exact ⟨⟨all, after⟩, rfl, all⟩

end

mutual
theorem counted_read (c : Column) (marks : c.Marks) (clauses : c.Clauses) (object : Object c marks) (cell : c.Cell)
    (counted : CountedObject c marks object) :
    CountedObject c marks (read_sequence_values c marks clauses object cell).1 ∧
      Counted c marks (read_sequence_values c marks clauses object cell).2 := by
  cases c with
  | var d => exact ⟨trivial, trivial⟩
  | sequence columns =>
      obtain ⟨values, objects⟩ := object
      obtain ⟨there, inside⟩ := counted
      have each (objects : Objects columns marks) (row : Row columns) (counted : CountedObjects columns marks objects) :=
        counted_add_row columns marks clauses.2 objects row counted
      exact counted_read_sequence each there inside cell

theorem counted_add_row (cs : List Column) (marks : RowMarks cs) (clauses : RowClauses cs) (objects : Objects cs marks)
    (row : Row cs) (counted : CountedObjects cs marks objects) :
    CountedObjects cs marks (add_row cs marks clauses objects row).1 ∧
      CountedRow cs marks (add_row cs marks clauses objects row).2 := by
  cases cs with
  | nil => exact ⟨trivial, trivial⟩
  | cons c cs =>
      obtain ⟨send, marks, others⟩ := marks
      obtain ⟨clauses, rest⟩ := clauses
      obtain ⟨object, objects⟩ := objects
      obtain ⟨cell, cells⟩ := row
      obtain ⟨first, counted⟩ := counted
      obtain ⟨after, rows⟩ := counted_add_row cs others rest objects cells counted
      cases send with
      | true =>
          obtain ⟨read, value⟩ := counted_read c marks clauses object cell first
          exact ⟨⟨read, after⟩, value, rows⟩
      | false => exact ⟨⟨first, after⟩, rows⟩
end

mutual
theorem counted_fresh (c : Column) (marks : c.Marks) : CountedObject c marks (fresh c marks) := by
  cases c with
  | var d => trivial
  | sequence columns => exact ⟨fun _ mem => absurd mem List.not_mem_nil, counted_freshRow columns marks⟩

theorem counted_freshRow (cs : List Column) (marks : RowMarks cs) : CountedObjects cs marks (freshRow cs marks) := by
  cases cs with
  | nil => trivial
  | cons c cs =>
      obtain ⟨send, marks, others⟩ := marks
      exact ⟨counted_fresh c marks, counted_freshRow cs others⟩
end

/-! ## What the client makes of it -/

mutual
/-- What a client that gets the values of a variable holds then, and what is in its row. -/
def receive : (c : Column) → (marks : c.Marks) → HeldObject (c.declared marks) → Stored c marks →
    HeldObject (c.declared marks) × Held (c.declared marks)
  | .var d, marks, object, v => (object, d.sent Leaf.result marks v)
  | .sequence columns, marks, s, sent => regather (receive_row columns marks) s sent

def receive_row : (cs : List Column) → (marks : RowMarks cs) → HeldObjects (declaredRow cs marks) → StoredRow cs marks →
    HeldObjects (declaredRow cs marks) × HeldRow (declaredRow cs marks)
  | [], _, _, _ => ((), ())
  | c :: cs, (true, marks, others), objects, row =>
      Mealy.pair (receive c marks) (receive_row cs others) objects row
  | _ :: cs, (false, _, others), objects, row => receive_row cs others objects row
end

section

variable {server client : Words.ByteOrder}

theorem get_rows_collect {X Y O α C K A S : Type} {c : Coding α C K A S} {put : X → Option (List C)}
    {get_row : O → S → Option (O × Y × S)} {step : O → X → O × Y} {xs : List X}
    (each : ∀ x ∈ xs, ∀ objects calls s u, put x = some calls → c.Answers calls s u →
      get_row objects s = some ((step objects x).1, (step objects x).2, u))
    {calls : List C} (puts : collect put xs = some calls) (objects : O) (ys : List Y) {s u : S}
    (answers : c.Answers calls s u) :
    get_rows get_row xs.length objects ys s =
      some ((Mealy.run step objects xs).1, ys ++ (Mealy.run step objects xs).2, u) := by
  induction xs generalizing calls objects ys s with
  | nil =>
      cases puts
      cases answers
      rw [List.length_nil, get_rows, Mealy.run_nil, List.append_nil]
  | cons x xs ih =>
      rw [List.forall_mem_cons] at each
      simp only [collect, Option.bind_eq_bind, Option.bind_eq_some_iff, Option.pure_def, Option.some.injEq] at puts
      obtain ⟨first, putFirst, others, putOthers, rfl⟩ := puts
      obtain ⟨next, answersFirst, answersOthers⟩ := Coding.answers_append answers
      have gotFirst := each.1 objects first s next putFirst answersFirst
      have gotOthers := ih each.2 putOthers (step objects x).1 (ys ++ [(step objects x).2]) answersOthers
      simp only [List.length_cons, get_rows, gotFirst, Option.bind_eq_bind, Option.bind_some, gotOthers]
      rw [Mealy.run, List.append_assoc, List.singleton_append]

theorem getCount_of_answers {n : Nat} {small : n < 2 ^ 64} {s u : InStream UInt8}
    (answers : (dataCoding server client).Answers [.count n small] s u) :
    D4StreamUnMarshaller.getCount client s = some (n, u) := by
  rw [Coding.answers_singleton] at answers
  obtain ⟨⟨m, w⟩, got, same⟩ := Option.map_eq_some_iff.mp answers
  cases same
  exact got

theorem convert_size {n : Nat} (small : (n : Int) < 2 ^ 63) : int64_t.convert n = n := by
  apply CType.convert_of_fits (by decide)
  simp only [CType.Fits, CType.least, CType.bound, if_true, Nat.reduceSub]
  omega

theorem getCount_of_put_count {n : Nat} {count : List Datum} (puts : put_count n = some count) {s u : InStream UInt8}
    (answers : (dataCoding server client).Answers count s u) :
    D4StreamUnMarshaller.getCount client s = some (n, u) ∧ int64_t.convert n = n := by
  unfold put_count at puts
  split at puts
  · rename_i small
    cases puts
    have got := getCount_of_answers answers
    rw [Int.toNat_natCast] at got
    exact ⟨got, convert_size small.2⟩
  · cases puts

theorem deserialize_sequence_of_answers {columns : List Column} {marks : RowMarks columns}
    {sent : D4SeqValues (StoredRow columns marks)}
    (each : ∀ row ∈ sent.d_values, ∀ objects calls s u, serialize_row columns marks row = some calls →
      (dataCoding server client).Answers calls s u →
      deserialize_row client (decide (server ≠ client)) (declaredRow columns marks) objects s =
        some ((receive_row columns marks objects row).1, (receive_row columns marks objects row).2, u))
    (counted : sent.d_length = sent.d_values.length)
    (object : D4SeqValues (HeldRow (declaredRow columns marks)) × HeldObjects (declaredRow columns marks))
    {calls : List Datum} (puts : serialize (.sequence columns) marks sent = some calls) {s u : InStream UInt8}
    (answers : (dataCoding server client).Answers calls s u) :
    deserialize client (decide (server ≠ client)) (.sequence (declaredRow columns marks)) object s =
      some ((regather (receive_row columns marks) object sent).1, (regather (receive_row columns marks) object sent).2,
        u) := by
  simp only [serialize, Option.bind_eq_bind, Option.bind_eq_some_iff, Option.pure_def, Option.some.injEq] at puts
  obtain ⟨count, putCount, data, putRows, rfl⟩ := puts
  rw [counted] at putCount
  obtain ⟨next, answersCount, answersRows⟩ := Coding.answers_append answers
  obtain ⟨gotCount, same⟩ := getCount_of_put_count putCount answersCount
  have gotRows := get_rows_collect each putRows object.2 object.1.d_values answersRows
  have got : get_values (deserialize_row client (decide (server ≠ client)) (declaredRow columns marks))
      (sent.d_values.length : Int) object next = some ((regather (receive_row columns marks) object sent).1,
        (regather (receive_row columns marks) object sent).2, u) := by
    rw [get_values, Int.toNat_natCast, gotRows, ← counted]
    rfl
  change ((D4StreamUnMarshaller.getCount client s).bind fun count =>
    get_values (deserialize_row client (decide (server ≠ client)) (declaredRow columns marks))
      (int64_t.convert count.1) object count.2) = _
  rw [gotCount, Option.bind_some]
  dsimp only
  rw [same]
  exact got

mutual
/-- When what is sent of a variable is answered, the client holds what it is to receive. -/
theorem deserialize_of_answers (c : Column) (marks : c.Marks) (sent : Stored c marks) (counted : Counted c marks sent)
    (object : HeldObject (c.declared marks)) {calls : List Datum} (puts : serialize c marks sent = some calls)
    {s u : InStream UInt8} (answers : (dataCoding server client).Answers calls s u) :
    deserialize client (decide (server ≠ client)) (c.declared marks) object s =
      some ((receive c marks object sent).1, (receive c marks object sent).2, u) := by
  cases c with
  | var d =>
      have got := Receiver.deserialize_of_answers receiver_follows d marks sent puts answers
      change (do
        let (v, s) ← (DataResponse.receiver client (decide (server ≠ client))).deserialize (d.declared marks) s
        return (object, v, s)) = _
      rw [got]
      rfl
  | sequence columns =>
      exact deserialize_sequence_of_answers (fun row mem objects _ _ _ putRow answersRow =>
        deserialize_row_of_answers columns marks row (counted.2 row mem) objects putRow answersRow) counted.1 object puts
        answers

theorem deserialize_row_of_answers (cs : List Column) (marks : RowMarks cs) (row : StoredRow cs marks)
    (counted : CountedRow cs marks row) (objects : HeldObjects (declaredRow cs marks)) {calls : List Datum}
    (puts : serialize_row cs marks row = some calls) {s u : InStream UInt8}
    (answers : (dataCoding server client).Answers calls s u) :
    deserialize_row client (decide (server ≠ client)) (declaredRow cs marks) objects s =
      some ((receive_row cs marks objects row).1, (receive_row cs marks objects row).2, u) := by
  cases cs with
  | nil =>
      cases puts
      cases answers
      rfl
  | cons c cs =>
      obtain ⟨send, marks, others⟩ := marks
      cases send with
      | false => exact deserialize_row_of_answers cs others row counted objects puts answers
      | true =>
          obtain ⟨v, row⟩ := row
          obtain ⟨object, objects⟩ := objects
          simp only [serialize_row, Option.bind_eq_bind, Option.bind_eq_some_iff, Option.pure_def,
            Option.some.injEq] at puts
          obtain ⟨first, putFirst, rest, putRest, rfl⟩ := puts
          obtain ⟨next, answersFirst, answersRest⟩ := Coding.answers_append answers
          have gotFirst := deserialize_of_answers c marks v counted.1 object putFirst answersFirst
          have gotRest := deserialize_row_of_answers cs others row counted.2 objects putRest answersRest
          simp only [declaredRow, deserialize_row, gotFirst, gotRest, Option.bind_eq_bind, Option.bind_some]
          rfl
end

end

/-! ## What comes back -/

/-- What comes back of the rows of a Sequence, or of the values of another variable, one read after the other. -/
def back (c : Column) (marks : c.Marks) (clauses : c.Clauses) (cells : List c.Cell) : List (Held (c.declared marks)) :=
  (Mealy.run (receive c marks) (declaredFresh (c.declared marks))
    (Mealy.run (read_sequence_values c marks clauses) (fresh c marks) cells).2).2

def back_rows (cs : List Column) (marks : RowMarks cs) (clauses : RowClauses cs) (rows : List (Row cs)) :
    List (HeldRow (declaredRow cs marks)) :=
  (Mealy.run (receive_row cs marks) (declaredFreshRow (declaredRow cs marks))
    (Mealy.run (add_row cs marks clauses) (freshRow cs marks) rows).2).2

theorem length_back (c : Column) (marks : c.Marks) (clauses : c.Clauses) (cells : List c.Cell) :
    (back c marks clauses cells).length = cells.length := by
  rw [back, Mealy.length_run, Mealy.length_run]

theorem length_back_rows (cs : List Column) (marks : RowMarks cs) (clauses : RowClauses cs) (rows : List (Row cs)) :
    (back_rows cs marks clauses rows).length = rows.length := by
  rw [back_rows, Mealy.length_run, Mealy.length_run]

theorem zip_eq_map_iff {α β γ δ : Type} {f : α → γ} {g : β → δ} {xs : List γ} {ys : List δ} {rows : List (α × β)}
    (first : xs.length = (rows.map Prod.fst).length) (second : ys.length = (rows.map Prod.snd).length) :
    xs.zip ys = rows.map (fun r => (f r.1, g r.2)) ↔ xs = (rows.map Prod.fst).map f ∧ ys = (rows.map Prod.snd).map g := by
  rw [List.length_map] at first second
  constructor
  · intro same
    have left := congrArg (List.map Prod.fst) same
    have right := congrArg (List.map Prod.snd) same
    rw [List.map_fst_zip (by rw [first, second])] at left
    rw [List.map_snd_zip (by rw [first, second])] at right
    rw [left, right, List.map_map, List.map_map, List.map_map, List.map_map]
    exact ⟨rfl, rfl⟩
  · rintro ⟨rfl, rfl⟩
    rw [List.map_map, List.map_map, List.zip_map']
    rfl

theorem values_come_back {V H : Type} (f : V → H) (vs : List V) :
    (Mealy.run (fun (o : Unit) v => (o, f v)) () (Mealy.run (fun (o : Unit) v => (o, v)) () vs).2).2 = vs.map f := by
  have read : Mealy.run (fun (o : Unit) (v : V) => (o, v)) () vs = ((), vs.map id) :=
    Mealy.run_stays (f := id) (fun _ => rfl) vs
  have got : Mealy.run (fun (o : Unit) v => (o, f v)) () (vs.map id) = ((), (vs.map id).map f) :=
    Mealy.run_stays (f := f) (fun _ => rfl) _
  rw [read, got, List.map_id]

section

variable {O P A R H : Type} (add : O → A → O × R) (get : P → R → P × H) (o : O) (p : P) (e : A → H)

/-- Tables that are read into one object, and received into another, come back as they are if and only if all but the
last are empty and the last comes back. -/
theorem tables_come_back_iff (tables : List (List A)) :
    (Mealy.run (regather get) (.empty, p) (Mealy.run (gather add) (.empty, o) tables).2).2 =
        tables.map (fun rows => ⟨rows.length, rows.map e⟩) ↔
      (∀ rows ∈ tables.dropLast, rows = []) ∧
        ∀ rows ∈ tables.getLast?, (Mealy.run get p (Mealy.run add o rows).2).2 = rows.map e := by
  induction tables with
  | nil => simp
  | cons rows tables ih =>
      cases tables with
      | nil => simp [Mealy.run, gather, regather, D4SeqValues.empty]
      | cons next tables =>
          rw [List.dropLast_cons_cons, List.getLast?_cons_cons, List.forall_mem_cons, and_assoc, ← ih]
          cases rows with
          | nil =>
              have read : gather add (.empty, o) [] = ((.empty, o), .empty) := rfl
              have got : regather get (.empty, p) (.empty : D4SeqValues R) = ((.empty, p), .empty) := rfl
              rw [Mealy.run_cons read, Mealy.run_cons got, List.map_cons]
              simp [D4SeqValues.empty]
          | cons row rows =>
              -- the next copy has the rows that are left over
              constructor
              · intro same
                have lengths := congrArg (List.map D4SeqValues.d_length) same
                simp [Mealy.run, gather, regather, D4SeqValues.empty] at lengths
                omega
              · rintro ⟨nothing, -⟩
                cases nothing

end

section

variable {columns : List Column} {marks : RowMarks columns} {clauses : (Column.sequence columns).Clauses}

theorem back_sequence (tables : List (List (Row columns))) :
    back (.sequence columns) marks clauses tables =
      (Mealy.run (regather (receive_row columns marks)) (.empty, declaredFreshRow (declaredRow columns marks))
        (Mealy.run (gather (add_row columns marks clauses.2)) (.empty, freshRow columns marks)
          (tables.map (kept clauses))).2).2 := by
  have read : read_sequence_values (.sequence columns) marks clauses =
      fun s rows => gather (add_row columns marks clauses.2) s (kept clauses rows) := by
    funext s rows
    exact read_sequence s rows
  rw [← Mealy.run_map, ← read]
  rfl

/-- All but the last of the tables have no rows that are kept, and the last comes back. -/
theorem back_sequence_iff (tables : List (List (Row columns))) :
    back (.sequence columns) marks clauses tables = tables.map (expected (.sequence columns) marks clauses) ↔
      (∀ rows ∈ tables.dropLast, kept clauses rows = []) ∧ ∀ rows ∈ tables.getLast?,
        back_rows columns marks clauses.2 (kept clauses rows) =
          (kept clauses rows).map (expectedRow columns marks clauses.2) := by
  have back_ := tables_come_back_iff (add_row columns marks clauses.2) (receive_row columns marks)
    (freshRow columns marks) (declaredFreshRow (declaredRow columns marks)) (expectedRow columns marks clauses.2)
    (tables.map (kept clauses))
  rw [List.map_map, ← List.map_dropLast, List.forall_mem_map, List.getLast?_map] at back_
  simp only [Option.mem_map, forall_exists_index, and_imp, forall_apply_eq_imp_iff₂] at back_
  rw [back_sequence]
  exact back_

end

mutual
/-- Everything comes back as it was read if and only if no child rows are left over. -/
theorem back_eq_iff (c : Column) (marks : c.Marks) (clauses : c.Clauses) (cells : List c.Cell) :
    back c marks clauses cells = cells.map (expected c marks clauses) ↔ LastOnly c marks clauses cells := by
  cases c with
  | var d =>
      apply iff_of_true _ trivial
      exact values_come_back (d.sent Leaf.result marks) cells
  | sequence columns =>
      apply (back_sequence_iff cells).trans
      apply and_congr_right
      intro _
      exact forall₂_congr fun rows _ => back_rows_eq_iff columns marks clauses.2 (kept clauses rows)

theorem back_rows_eq_iff (cs : List Column) (marks : RowMarks cs) (clauses : RowClauses cs) (rows : List (Row cs)) :
    back_rows cs marks clauses rows = rows.map (expectedRow cs marks clauses) ↔ LastOnlyRows cs marks clauses rows := by
  cases cs with
  | nil =>
      apply iff_of_true _ trivial
      exact values_come_back (fun (_ : Unit) => ()) rows
  | cons c cs =>
      obtain ⟨send, marks, others⟩ := marks
      obtain ⟨clauses, rest⟩ := clauses
      cases send with
      | true =>
          have both : back_rows (c :: cs) (true, marks, others) (clauses, rest) rows =
              (back c marks clauses (rows.map Prod.fst)).zip (back_rows cs others rest (rows.map Prod.snd)) :=
            Mealy.run_pair_run_pair (read_sequence_values c marks clauses) (add_row cs others rest) (receive c marks)
              (receive_row cs others) _ _ _ _ rows
          have lengths := zip_eq_map_iff (f := expected c marks clauses) (g := expectedRow cs others rest)
            (length_back c marks clauses (rows.map Prod.fst)) (length_back_rows cs others rest (rows.map Prod.snd))
          rw [both]
          exact lengths.trans (and_congr (back_eq_iff c marks clauses (rows.map Prod.fst))
            (back_rows_eq_iff cs others rest (rows.map Prod.snd)))
      | false =>
          have alone : back_rows (c :: cs) (false, marks, others) (clauses, rest) rows =
              back_rows cs others rest (rows.map Prod.snd) :=
            congrArg (fun sent => (Mealy.run (receive_row cs others) (declaredFreshRow (declaredRow cs others)) sent).2)
              (congrArg Prod.snd (Mealy.run_behind (add_row cs others rest) (fresh c marks) (freshRow cs others) rows))
          have same : rows.map (expectedRow (c :: cs) (false, marks, others) (clauses, rest)) =
              (rows.map Prod.snd).map (expectedRow cs others rest) := (List.map_map ..).symm
          exact (Eq.congr alone same).trans (back_rows_eq_iff cs others rest (rows.map Prod.snd))
end

theorem items_datums (host : Words.ByteOrder) (data : List Datum) (m : D4StreamMarshaller) :
    items host (data.map .datum) m = data.map .datum := by
  induction data generalizing m with
  | nil => rfl
  | cons d data ih => exact congrArg (Item.datum d :: ·) (ih (putDatum host m d).2)

/-- A number, and rows of a number. -/
def station : List Column := [.var (.leaf (.number .byte)), .sequence [.var (.leaf (.number .byte))]]

def allSent : RowMarks station := (true, (), true, (true, (), ()), ())

def noFilter : (Column.sequence station).Clauses := (fun _ => true, (), (fun _ => true, (), ()), ())

/-- Two stations with one row each. -/
def stations : List (Row station) :=
  [(⟨1, by decide⟩, [(⟨2, by decide⟩, ())], ()), (⟨3, by decide⟩, [(⟨4, by decide⟩, ())], ())]

/-- What is sent of them: the second has the row of the first one, too. -/
def sentStations : List Datum :=
  [.count 2 (by decide), .number .byte 1 (by decide), .count 1 (by decide), .number .byte 2 (by decide),
    .number .byte 3 (by decide), .count 2 (by decide), .number .byte 2 (by decide), .number .byte 4 (by decide)]

end Libdap.Dap4.SequenceTransfer
